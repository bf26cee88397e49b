import FairCross.Engine.Proofs.AccountingProofs
import FairCross.Proof.Proofs.ConstraintProofs

/-!
# Order validity on accepted batches

The gadgets of a side, an instrument, a price and a quantity hold of every order that `Batch::create`
accepts. The sequence constraint wants the position of the order instead of its rank.
-/

namespace FairCross

/-- A subrelation that allocates its own variables reads its own scalars. -/
theorem Synthesis.Extends.reads_scalars {k z : ℕ} {s : Synthesis}
    (h : Extends k z ⟨.new, []⟩ s) : s.Reads s.scalars := by
  have haligned := h.aligned
  refine ⟨0, ?_, by rw [List.drop_zero]⟩
  simp only [ConstraintSystem.new, List.length_nil] at haligned
  omega

/-- **Order validity.** On the orders of an accepted batch the emitted scalars satisfy the emitted
constraints exactly when every order's sequence number is its position. -/
theorem synthesizeOrderValidityConstraints_satisfied_iff [StdSort] {batchId : BatchId}
    {instrument : InstrumentId} {orders : List Order} {batch : Batch}
    (hb : Batch.create batchId instrument orders = .ok batch) (publicInputs : List U64) :
    (∃ s, Synth.into (synthesizeOrderValidityConstraints batch.instrument.raw batch.orders) .new =
        .ok s ∧ s.cs.isSatisfied publicInputs s.scalars = .ok ()) ↔
      ∀ k o, batch.orders[k]? = some o → (o.seq : ℕ) = k := by
  have hacc := Batch.accepted_of_create hb
  have hlen := len_le_of_nodup hacc.orders.ids_nodup
  have hpos : (∀ p ∈ batch.orders.zipIdx, OrderAsserts batch.instrument.raw p.2 p.1) ↔
      ∀ k o, batch.orders[k]? = some o → (o.seq : ℕ) = k := by
    simp only [List.mem_zipIdx_iff_getElem?, Prod.forall]
    constructor
    · intro h k o ho
      have hk : k < batch.len := (List.getElem?_eq_some_iff.mp ho).1
      obtain ⟨-, hseq⟩ := h o k ho
      rw [toScalar_eq_cast, ← BitVec.natCast_eq_ofNat,
        scalar_natCast_inj (by have := o.seq.isLt; omega) (by omega)] at hseq
      exact hseq
    · intro h o k ho
      refine ⟨congrArg InstrumentId.raw (hacc.orders.order o (List.mem_of_getElem? ho)).instrument_eq, ?_⟩
      rw [toScalar_eq_cast, h k o ho, BitVec.natCast_eq_ofNat]
  have hemits := fun witness => @emits_synthesizeOrderValidityConstraints publicInputs witness 0 True
    batch.instrument.raw batch.orders
  obtain ⟨a, s, hs⟩ := (hemits []).succeeds trivial ⟨.new, []⟩ rfl
  have hinto : Synth.into (synthesizeOrderValidityConstraints batch.instrument.raw batch.orders) .new =
      .ok s := by rw [Synth.into, hs]; rfl
  obtain ⟨-, hext, hspec⟩ := (hemits s.scalars).spec rfl hs
  have hsat := (hspec trivial hext.reads_scalars).2
  have hnew : ConstraintSystem.new.Sat publicInputs s.scalars := ConstraintSystem.sat_new
  rw [← hpos, ← and_iff_right hnew (b := ∀ p ∈ _, _), ← hsat]
  constructor
  · rintro ⟨s', hs', h⟩
    obtain rfl := Except.ok.inj (hinto.symm.trans hs')
    exact ConstraintSystem.isSatisfied_eq_ok.mp h
  · intro h
    exact ⟨s, hinto, ConstraintSystem.isSatisfied_eq_ok.mpr h⟩

/-- The orders of the example batch count from zero. -/
theorem synthesizeOrderValidityConstraints_satisfied_example : ∃ s,
    Synth.into (synthesizeOrderValidityConstraints 7 exampleBatch.orders) .new = .ok s ∧
      s.cs.isSatisfied [] s.scalars = .ok () :=
  (@synthesizeOrderValidityConstraints_satisfied_iff .stable ⟨1⟩ ⟨7⟩ exampleBatch.orders exampleBatch
    (by decide +kernel) []).mpr fun k o h => by
      rcases k with - | - | - | k
      · cases h; rfl
      · cases h; rfl
      · cases h; rfl
      · cases h

/-- One order, whose sequence number is not its position. -/
def gapBatch : Batch where
  batchId := ⟨1⟩
  instrument := ⟨7⟩
  orders := [exampleOrder 1 1 .buy 105 10 5]

theorem synthesizeOrderValidityConstraints_rejects_gap :
    @Batch.create .stable ⟨1⟩ ⟨7⟩ gapBatch.orders = .ok gapBatch ∧
    (Synth.into (synthesizeOrderValidityConstraints 7 gapBatch.orders) .new >>= fun s =>
      s.cs.isSatisfied [] s.scalars).isOk = false :=
  ⟨by decide +kernel, by decide +kernel⟩

end FairCross
