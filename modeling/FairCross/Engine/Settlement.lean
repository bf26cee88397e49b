import FairCross.Engine.Transition
import FairCross.Library.Postings

/-!
# Settlement in exact numbers

The balances of a ledger as exact integers, and what a fill adds to them. Like the market of a batch,
none of this is computed by the source; the settlement loop is compared with it.
-/

namespace FairCross

/-- Cash and the inventory of every instrument. -/
abbrev Balances := ℤ × (InstrumentId → ℤ)

namespace Ledger

/-- The cash of account `a`, nothing for a missing account. -/
def cashOf (l : Ledger) (a : AccountId) : ℕ := ((l.getAccount a).map fun x => (x.cash.raw : ℕ)).getD 0

/-- The inventory of instrument `i` in account `a`, nothing for a missing account. -/
def lotsOf (l : Ledger) (i : InstrumentId) (a : AccountId) : ℕ :=
  ((l.getAccount a).map fun x => ((x.inventoryOf i).raw : ℕ)).getD 0

/-- Cash and inventory of `i` together. -/
def balance (i : InstrumentId) (l : Ledger) (a : AccountId) : ℤ × ℤ := (l.cashOf a, l.lotsOf i a)

def balances (l : Ledger) (a : AccountId) : Balances := (l.cashOf a, fun i => l.lotsOf i a)

/-- The exact cash of all accounts. -/
def cashSum (l : Ledger) : ℕ := l.accounts.sum fun x => x.cash.raw

/-- The exact inventory of instrument `i` in all accounts. -/
def lotsSum (l : Ledger) (i : InstrumentId) : ℕ := l.accounts.sum fun x => (x.inventoryOf i).raw

end Ledger

/-- What a fill adds to cash and inventory of its account. -/
def Fill.delta (f : Fill) : ℤ × ℤ :=
  if f.side = .buy then (-(f.consideration.raw : ℤ), (f.fillQty.raw : ℤ))
  else ((f.consideration.raw : ℤ), -(f.fillQty.raw : ℤ))

/-- What a fill adds to the balances of its account. -/
def Fill.amounts (f : Fill) : Balances := (f.delta.1, Pi.single f.instrumentId f.delta.2)

/-- Balances an account can hold: cash in 128 bits, inventory in 64 bits. -/
def Storable (b : ℤ × ℤ) : Prop := 0 ≤ b.1 ∧ b.1 < 2 ^ 128 ∧ 0 ≤ b.2 ∧ b.2 < 2 ^ 64

instance (b : ℤ × ℤ) : Decidable (Storable b) := by unfold Storable; infer_instance

/-- The net amount the fills add to account `a`. -/
def netFills (fills : List Fill) (a : AccountId) : ℤ × ℤ := Postings.net Fill.accountId Fill.delta fills a

/-- The balance of `a` after the first `k` fills are settled on `l`. -/
def runningBalance (i : InstrumentId) (l : Ledger) (fills : List Fill) (k : ℕ) (a : AccountId) :
    ℤ × ℤ :=
  l.balance i a + netFills (fills.take k) a

end FairCross
