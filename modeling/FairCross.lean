import FairCross.Library.Apportion
import FairCross.Library.ByteOrder
import FairCross.Library.BlockStream
import FairCross.Library.BoundedSum
import FairCross.Library.CallMarket
import FairCross.Library.Loops
import FairCross.Library.Decimal
import FairCross.Library.Framing
import FairCross.Library.HashTree
import FairCross.Library.JsonTree
import FairCross.Library.LinearForm
import FairCross.Library.Postings
import FairCross.Library.SecureHash
import FairCross.Library.SortedMap
import FairCross.Library.StdSort
import FairCross.Library.Tally
import FairCross.MarketData.Proofs.BookProofs
import FairCross.MarketData.Proofs.PayloadProofs
import FairCross.MarketData.Proofs.ReplayProofs
import FairCross.Commitments.Proofs.MerkleProofs
import FairCross.Commitments.Proofs.Sha256Proofs
import FairCross.Engine.Proofs.AccountingProofs
import FairCross.Engine.Proofs.CheckerProofs
import FairCross.Engine.Proofs.DeterminismProofs
import FairCross.Engine.Proofs.FairnessProofs
import FairCross.Engine.Proofs.SimultaneityProofs
import FairCross.Engine.Proofs.BlindingProofs
import FairCross.Util.Proofs.JsonReturnsProofs
import FairCross.Cli.Proofs.RenderProofs
import FairCross.Proof.Proofs.AcceptanceProofs
import FairCross.Proof.Proofs.AssignmentProofs
import FairCross.Proof.Proofs.CompletenessProofs
import FairCross.Proof.Proofs.PreimageProofs
import FairCross.Proof.Proofs.ValidityProofs
import FairCross.Proof.Proofs.VerifierProofs
import FairCross.Proof.Proofs.WiringProofs
import FairCross.Simulator.Proofs.GeneratorProofs
import FairCross.Simulator.Proofs.IntervalProofs
import FairCross.Simulator.Proofs.MetricsProofs
import FairCross.Adversary.Proofs.MatrixProofs
import FairCross.Cli.Proofs.SessionCommandProofs
import FairCross.Cli.Fixtures
import FairCross.Cli.Proofs.FixtureProofs
import FairCross.Commitments.Proofs.ReferenceProofs
import FairCross.Engine.Proofs.EfficiencyProofs
import FairCross.Library.LocalAction
import FairCross.MarketData.Replay
import FairCross.MarketData.Proofs.BridgeProofs
