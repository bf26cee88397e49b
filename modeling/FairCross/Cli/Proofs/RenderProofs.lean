import FairCross.Cli.Render
import FairCross.Proof.Proofs.CompletenessProofs
import FairCross.Util.Proofs.JsonProofs
import FairCross.Util.Proofs.JsonWriterProofs

/-!
# Reading the output back

The `--json` output of an execution is the text of a document without repeated keys. The reader takes
it exactly when every number in it fits a `long long`; the writer has no such bound.
-/

namespace FairCross.Cli

open JsonTree Write

/-! ## The document of a result -/

def orderJson (o : Order) : JsonTree :=
  .obj [("id", .num o.id.raw), ("account", .num o.account.raw), ("instrument", .num o.instrument.raw),
    ("side", .str (sideName o.side)), ("price", .num o.price.raw), ("qty", .num o.qty.raw),
    ("seq", .num o.seq)]

def inventoryJson (e : InstrumentId × Qty) : String × JsonTree :=
  (toString (e.1.raw : ℕ), .num e.2.raw)

def accountJson (e : AccountId × AccountState) : String × JsonTree :=
  (toString (e.1.raw : ℕ), .obj [("account_id", .num e.1.raw), ("cash", .num e.2.cash.raw),
    ("inventory", .obj (e.2.inventory.entries.map inventoryJson))])

def ledgerJson (ledger : Ledger) : JsonTree :=
  .obj [("accounts", .obj (ledger.accounts.entries.map accountJson))]

def orderAllocationJson (a : OrderAllocation) : JsonTree :=
  .obj [("order_id", .num a.orderId.raw), ("account", .num a.account.raw),
    ("side", .str (sideName a.side)), ("limit_price", .num a.limitPrice.raw),
    ("original_qty", .num a.originalQty.raw), ("allocated_qty", .num a.allocatedQty.raw),
    ("seq", .num a.seq)]

def fillJson (f : Fill) : JsonTree :=
  .obj [("fill_idx", .num f.fillId), ("order_id", .num f.orderId.raw),
    ("account_id", .num f.accountId.raw), ("instrument_id", .num f.instrumentId.raw),
    ("side", .str (sideName f.side)), ("execution_price", .num f.executionPrice.raw),
    ("fill_qty", .num f.fillQty.raw), ("consideration", .num f.consideration.raw)]

/-- Without a price, null. -/
def priceJson (price : Option Price) : JsonTree := price.elim .null fun p => .num p.raw

def executionJson (batch : Batch) (exec : BatchExecutionResult) : JsonTree :=
  .obj [
    ("batch", .obj [("batch_id", .num batch.batchId.raw), ("instrument", .num batch.instrument.raw),
      ("orders", .arr (batch.orders.map orderJson))]),
    ("clearing_outcome", .obj [("clearing_price", priceJson exec.clearingOutcome.clearingPrice),
      ("executable_volume", .num exec.clearingOutcome.executableVolume.raw)]),
    ("allocation", .obj [("clearing_price", priceJson exec.allocation.clearingPrice),
      ("target_volume", .num exec.allocation.targetVolume.raw),
      ("total_buy_allocated", .num exec.allocation.totalBuyAllocated.raw),
      ("total_sell_allocated", .num exec.allocation.totalSellAllocated.raw),
      ("allocations", .arr (exec.allocation.allocations.map orderAllocationJson))]),
    ("fills", .arr (exec.fills.map fillJson)),
    ("post_state", ledgerJson exec.postState)]

/-! ## What is written -/

theorem writes_fieldU64 (k : String) (v : U64) : Writes (fieldU64 k v) (fieldText (k, .num v)) :=
  writes_field k (writes_valueU64 v)

theorem writes_fieldU128 (k : String) (v : U128) : Writes (fieldU128 k v) (fieldText (k, .num v)) :=
  writes_field k (writes_valueU128 v)

theorem writes_fieldString (k v : String) : Writes (fieldString k v) (fieldText (k, .str v)) :=
  writes_field k (writes_valueString v)

theorem writes_price (k : String) (price : Option Price) :
    Writes (fieldOptionalU64 k (price.map (·.raw))) (fieldText (k, priceJson price)) := by
  have h := writes_fieldOptionalU64 k (price.map (·.raw))
  rwa [Option.elim_map] at h

theorem writes_order (o : Order) : Writes (writeOrder o) (orderJson o).text := by
  refine writes_object ?_
  exact .cons (writes_fieldU64 ..) <| .cons (writes_fieldU64 ..) <| .cons (writes_fieldU64 ..) <|
    .cons (writes_fieldString ..) <| .cons (writes_fieldU64 ..) <| .cons (writes_fieldU64 ..) <|
    .last (writes_fieldU64 ..)

theorem writes_account (e : AccountId × AccountState) :
    Writes (writeAccount e) (fieldText (accountJson e)) := by
  have hinventory : WritesAll
      (e.2.inventory.entries.forM fun i => fieldU64 (toString (i.1.raw : ℕ)) i.2.raw)
      ((e.2.inventory.entries.map inventoryJson).map fieldText) := by
    rw [List.map_map]
    exact .forM _ fun i => writes_fieldU64 (toString (i.1.raw : ℕ)) i.2.raw
  refine writes_field _ (writes_object ?_)
  exact .cons (writes_fieldU64 ..) <| .cons (writes_fieldU128 ..) <|
    .last (writes_field _ (writes_object hinventory))

theorem writes_ledger (ledger : Ledger) : Writes (writeLedger ledger) (ledgerJson ledger).text := by
  have haccounts : WritesAll (ledger.accounts.entries.forM writeAccount)
      ((ledger.accounts.entries.map accountJson).map fieldText) := by
    rw [List.map_map]
    exact .forM _ writes_account
  exact writes_object (.last (writes_field _ (writes_object haccounts)))

theorem writes_orderAllocation (a : OrderAllocation) :
    Writes (writeOrderAllocation a) (orderAllocationJson a).text := by
  refine writes_object ?_
  exact .cons (writes_fieldU64 ..) <| .cons (writes_fieldU64 ..) <| .cons (writes_fieldString ..) <|
    .cons (writes_fieldU64 ..) <| .cons (writes_fieldU64 ..) <| .cons (writes_fieldU64 ..) <|
    .last (writes_fieldU64 ..)

theorem writes_fill (f : Fill) : Writes (writeFill f) (fillJson f).text := by
  refine writes_object ?_
  exact .cons (writes_fieldU64 ..) <| .cons (writes_fieldU64 ..) <| .cons (writes_fieldU64 ..) <|
    .cons (writes_fieldU64 ..) <| .cons (writes_fieldString ..) <| .cons (writes_fieldU64 ..) <|
    .cons (writes_fieldU64 ..) <| .last (writes_fieldU128 ..)

/-- The items of an array, each written by one method. -/
theorem writes_items {ι : Type} {f : ι → Write} {g : ι → JsonTree} (l : List ι)
    (h : ∀ x, Writes (f x) (g x).text) : Writes (array (l.forM f)) (JsonTree.arr (l.map g)).text := by
  refine writes_array ?_
  rw [List.map_map]
  exact .forM l h

/-- **Writing.** A result is written as the text of its document. -/
theorem executionText_eq (batch : Batch) (exec : BatchExecutionResult) :
    executionText batch exec = (executionJson batch exec).text := by
  have h : Writes (writeExecutionResult batch exec) (executionJson batch exec).text := by
    refine writes_object ?_
    refine .field _ (writes_object ?_) <| .field _ (writes_object ?_) <|
      .field _ (writes_object ?_) <| .field _ (writes_items exec.fills writes_fill) <|
      .last (writes_field _ (writes_ledger exec.postState))
    · exact .cons (writes_fieldU64 ..) <| .cons (writes_fieldU64 ..) <|
        .last (writes_field _ (writes_items batch.orders writes_order))
    · exact .cons (writes_price ..) <| .last (writes_fieldU64 ..)
    · exact .cons (writes_price ..) <| .cons (writes_fieldU64 ..) <| .cons (writes_fieldU64 ..) <|
        .cons (writes_fieldU64 ..) <|
        .last (writes_field _ (writes_items exec.allocation.allocations writes_orderAllocation))
  unfold executionText
  rw [h.run, Writer.new, Writer.separator_fresh]
  rfl

/-! ## What is read -/

/-- The keys of a map stay distinct when they are written as texts. -/
theorem nodup_toString {κ ν : Type} [LinearOrder κ] (m : SortedMap κ ν) {raw : κ → ℕ}
    (hraw : Function.Injective raw) {f : κ × ν → String × JsonTree}
    (hf : ∀ e, (f e).1 = toString (raw e.1)) : ((m.entries.map f).map (·.1)).Nodup := by
  have hkeys : (m.entries.map f).map (·.1) = m.keys.map fun k => toString (raw k) := by
    rw [SortedMap.keys, List.map_map, List.map_map]
    exact List.map_congr_left fun e _ => hf e
  rw [hkeys]
  exact m.keys_nodup.map fun k k' h => hraw (Nat.repr_inj.mp h)

theorem executionJson_distinctKeys (batch : Batch) (exec : BatchExecutionResult) :
    (executionJson batch exec).DistinctKeys := by
  have hprice : ∀ p, (priceJson p).DistinctKeys := by
    intro p
    cases p <;> simp [priceJson]
  have haccounts : (JsonTree.obj (exec.postState.accounts.entries.map accountJson)).DistinctKeys := by
    refine distinctKeys_obj.mpr ⟨nodup_toString _ (fun a b h => AccountId.ext (Fin.ext h))
      fun _ => rfl, List.forall_mem_map.mpr fun e _ => ?_⟩
    have hinventory : (JsonTree.obj (e.2.inventory.entries.map inventoryJson)).DistinctKeys := by
      refine distinctKeys_obj.mpr ⟨nodup_toString _ (fun a b h => InstrumentId.ext (Fin.ext h))
        fun _ => rfl, List.forall_mem_map.mpr fun i _ => distinctKeys_num⟩
    simp [accountJson, distinctKeys_obj, hinventory]
  simp [executionJson, orderJson, orderAllocationJson, fillJson, ledgerJson, distinctKeys_obj, hprice,
    haccounts]

/-- Every number of the output is below 2^63. -/
structure FitsInt64 (batch : Batch) (exec : BatchExecutionResult) : Prop where
  batchId : (batch.batchId.raw : ℕ) < 2 ^ 63
  instrument : (batch.instrument.raw : ℕ) < 2 ^ 63
  orders : ∀ o ∈ batch.orders, (o.id.raw : ℕ) < 2 ^ 63 ∧ (o.account.raw : ℕ) < 2 ^ 63 ∧
    (o.instrument.raw : ℕ) < 2 ^ 63 ∧ (o.price.raw : ℕ) < 2 ^ 63 ∧ (o.qty.raw : ℕ) < 2 ^ 63 ∧
    (o.seq : ℕ) < 2 ^ 63
  clearingPrice : ∀ p, exec.clearingOutcome.clearingPrice = some p → (p.raw : ℕ) < 2 ^ 63
  executableVolume : (exec.clearingOutcome.executableVolume.raw : ℕ) < 2 ^ 63
  allocationPrice : ∀ p, exec.allocation.clearingPrice = some p → (p.raw : ℕ) < 2 ^ 63
  targetVolume : (exec.allocation.targetVolume.raw : ℕ) < 2 ^ 63
  totalBuyAllocated : (exec.allocation.totalBuyAllocated.raw : ℕ) < 2 ^ 63
  totalSellAllocated : (exec.allocation.totalSellAllocated.raw : ℕ) < 2 ^ 63
  allocations : ∀ a ∈ exec.allocation.allocations, (a.orderId.raw : ℕ) < 2 ^ 63 ∧
    (a.account.raw : ℕ) < 2 ^ 63 ∧ (a.limitPrice.raw : ℕ) < 2 ^ 63 ∧
    (a.originalQty.raw : ℕ) < 2 ^ 63 ∧ (a.allocatedQty.raw : ℕ) < 2 ^ 63 ∧ (a.seq : ℕ) < 2 ^ 63
  fills : ∀ f ∈ exec.fills, (f.fillId : ℕ) < 2 ^ 63 ∧ (f.orderId.raw : ℕ) < 2 ^ 63 ∧
    (f.accountId.raw : ℕ) < 2 ^ 63 ∧ (f.instrumentId.raw : ℕ) < 2 ^ 63 ∧
    (f.executionPrice.raw : ℕ) < 2 ^ 63 ∧ (f.fillQty.raw : ℕ) < 2 ^ 63 ∧
    (f.consideration.raw : ℕ) < 2 ^ 63
  accounts : ∀ e ∈ exec.postState.accounts.entries, (e.1.raw : ℕ) < 2 ^ 63 ∧
    (e.2.cash.raw : ℕ) < 2 ^ 63 ∧ ∀ i ∈ e.2.inventory.entries, (i.2.raw : ℕ) < 2 ^ 63

theorem fitsLongLong_iff (batch : Batch) (exec : BatchExecutionResult) :
    Json.FitsLongLong (executionJson batch exec) ↔ FitsInt64 batch exec := by
  have hprice : ∀ p, Json.FitsLongLong (priceJson p) ↔ ∀ q, p = some q → (q.raw : ℕ) < 2 ^ 63 := by
    intro p
    cases p <;> simp [priceJson]
  simp only [executionJson, orderJson, orderAllocationJson, fillJson, ledgerJson, accountJson,
    inventoryJson, allNumbers_num, allNumbers_str, allNumbers_arr_map, allNumbers_obj_nil,
    allNumbers_obj_cons, allNumbers_obj_map, hprice, true_and, and_true]
  constructor
  · rintro ⟨⟨h1, h2, h3⟩, ⟨h4, h5⟩, ⟨h6, h7, h8, h9, h10⟩, h11, h12⟩
    exact ⟨h1, h2, h3, h4, h5, h6, h7, h8, h9, h10, h11, h12⟩
  · rintro ⟨h1, h2, h3, h4, h5, h6, h7, h8, h9, h10, h11, h12⟩
    exact ⟨⟨h1, h2, h3⟩, ⟨h4, h5⟩, ⟨h6, h7, h8, h9, h10⟩, h11, h12⟩

/-- **Output and input.** The output of a result is read back, with all that was written, exactly
when every number in it is below 2^63. -/
theorem parse_executionText_iff (batch : Batch) (exec : BatchExecutionResult) :
    (∃ value, Json.parse (executionText batch exec) = some (.ok value) ∧
      value.Reads (executionJson batch exec)) ↔ FitsInt64 batch exec := by
  rw [← fitsLongLong_iff, executionText_eq]
  obtain ⟨haccepts, hoverflows⟩ := Json.parse_text (executionJson batch exec)
  constructor
  · rintro ⟨value, hvalue, -⟩
    by_contra hfits
    rw [hoverflows hfits] at hvalue
    cases hvalue
  · intro hfits
    exact ⟨_, haccepts hfits, Json.reads_ofTree _ (executionJson_distinctKeys batch exec)⟩

/-- **An output that cannot be read.** The wide batch executes, and leaves its seller 2^64 in cash. -/
theorem parse_rejects_wide : @executeBatch .stable wideLedger wideBatch = .ok wideResult ∧
    Json.parse (executionText wideBatch wideResult) = some (.error .outOfRange) ∧
    ¬ ∃ value, Json.parse (executionText wideBatch wideResult) = some (.ok value) := by
  have hexec : @executeBatch .stable wideLedger wideBatch = .ok wideResult := by decide +kernel
  have hwide : ∃ e ∈ wideResult.postState.accounts.entries, ¬ (e.2.cash.raw : ℕ) < 2 ^ 63 := by
    decide +kernel
  have hfits : ¬ Json.FitsLongLong (executionJson wideBatch wideResult) := by
    obtain ⟨e, he, hcash⟩ := hwide
    rw [fitsLongLong_iff]
    exact fun h => hcash (h.accounts e he).2.1
  have hparse := (Json.parse_text (executionJson wideBatch wideResult)).2 hfits
  rw [← executionText_eq] at hparse
  refine ⟨hexec, hparse, ?_⟩
  rintro ⟨value, hvalue⟩
  rw [hparse] at hvalue
  cases hvalue

end FairCross.Cli
