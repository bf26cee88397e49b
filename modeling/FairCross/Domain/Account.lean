import FairCross.Domain.Order
import FairCross.Library.SortedMap

/-!
# Accounts and ledgers

`domain/account.hpp`. The methods that change an account return the changed account; a failed one
returns its error and no account, as every caller gives the whole ledger up then.
-/

namespace FairCross

/-- Cash, inventories and the blinding salt of one participant. -/
structure AccountState where
  id : AccountId
  cash : Money
  inventory : SortedMap InstrumentId Qty
  commitmentSalt : Bytes32
deriving DecidableEq

namespace AccountState

/-- The constructor `AccountState(id, initial_cash)`: no inventory, and the zero salt. -/
def new (id : AccountId) (initialCash : Money) : AccountState :=
  { id, cash := initialCash, inventory := .empty, commitmentSalt := .fill 0 }

def inventoryOf (acc : AccountState) (inst : InstrumentId) : Qty :=
  (acc.inventory.find inst).getD .zero

def creditCash (acc : AccountState) (amount : Money) : Result AccountState := do
  let cash ← (acc.cash.checkedAdd amount).convert
  pure { acc with cash }

def debitCash (acc : AccountState) (amount : Money) : Result AccountState :=
  match acc.cash.checkedSub amount with
  | .error _ => .error (.primitive .insufficientBalance "Cash")
  | .ok cash => .ok { acc with cash }

def creditInventory (acc : AccountState) (inst : InstrumentId) (amount : Qty) :
    Result AccountState := do
  let current := acc.inventoryOf inst
  let qty ← (current.checkedAdd amount).convert
  pure { acc with inventory := acc.inventory.insert inst qty }

/-- An inventory that reaches zero is erased. -/
def debitInventory (acc : AccountState) (inst : InstrumentId) (amount : Qty) : Result AccountState :=
  let current := acc.inventoryOf inst
  match current.checkedSub amount with
  | .error _ => .error (.primitive .insufficientBalance "Inventory")
  | .ok qty =>
    if qty.isZero then .ok { acc with inventory := acc.inventory.erase inst }
    else .ok { acc with inventory := acc.inventory.insert inst qty }

end AccountState

/-- The accounts by their ids. -/
structure Ledger where
  accounts : SortedMap AccountId AccountState
deriving DecidableEq

namespace Ledger

def empty : Ledger := ⟨.empty⟩

/-- The account under `id`, and the ledger that has it: a missing account is inserted without cash.
The caller writes the account back with `setAccount`, as the source writes through the reference. -/
def getOrCreateAccount (l : Ledger) (id : AccountId) : Ledger × AccountState :=
  match l.accounts.find id with
  | some acc => (l, acc)
  | none => (⟨l.accounts.insert id (.new id .zero)⟩, .new id .zero)

def setAccount (l : Ledger) (id : AccountId) (acc : AccountState) : Ledger :=
  ⟨l.accounts.insert id acc⟩

def getAccount (l : Ledger) (id : AccountId) : Option AccountState := l.accounts.find id

def insertAccount (l : Ledger) (state : AccountState) : Ledger := ⟨l.accounts.insert state.id state⟩

def totalCash (l : Ledger) : Result Money :=
  l.accounts.entries.foldlM (fun sum e => sum.checkedAdd e.2.cash) Money.zero

def totalInventoryOf (l : Ledger) (inst : InstrumentId) : Result Qty :=
  l.accounts.entries.foldlM (fun sum e => sum.checkedAdd (e.2.inventoryOf inst)) Qty.zero

end Ledger

end FairCross
