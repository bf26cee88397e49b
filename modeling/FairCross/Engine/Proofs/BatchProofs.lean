import FairCross.Library.Loops
import FairCross.Engine.Batch

/-!
# What `Batch::create` accepts

`Batch.Accepted` is the invariant of a batch that went through `create`: its orders pass the checks
and stand in canonical order. The canonical order leaves `std::sort` no freedom (`new_eq_of_perm`).
-/

namespace FairCross

open FreshKeys

/-- An order that passes the checks for a batch of `instrument`. -/
structure Order.Acceptable (instrument : InstrumentId) (o : Order) : Prop where
  instrument_eq : o.instrument = instrument
  side : o.side = .buy ∨ o.side = .sell
  price_pos : 0 < (o.price.raw : ℕ)
  qty_pos : 0 < (o.qty.raw : ℕ)

namespace Batch

theorem checkOrder_eq_ok {instrument : InstrumentId} {seen seen' : List OrderId} {o : Order} :
    checkOrder instrument seen o = .ok seen' ↔
      o.Acceptable instrument ∧ o.id ∉ seen ∧ seen' = o.id :: seen := by
  have hp : o.price.raw = 0 ↔ ¬ 0 < (o.price.raw : ℕ) := by rw [Fin.ext_iff, Fin.val_zero]; omega
  have hq : o.qty.isZero = true ↔ ¬ 0 < (o.qty.raw : ℕ) := by rw [Qty.isZero_iff]; omega
  have hs : (!o.side.isBuy && !o.side.isSell) = true ↔ ¬ (o.side = .buy ∨ o.side = .sell) := by
    simp [Side.isBuy, Side.isSell]
  unfold checkOrder
  constructor
  · intro h
    split_ifs at h with h1 h2 h3 h4 h5
    refine ⟨⟨not_not.mp h1, not_not.mp (hs.not.mp h2), not_not.mp (hp.not.mp h3),
      not_not.mp (hq.not.mp h4)⟩, h5, ?_⟩
    exact (Except.ok.inj h).symm
  · rintro ⟨⟨h1, h2, h3, h4⟩, h5, rfl⟩
    rw [if_neg (not_not.mpr h1), if_neg (hs.not.mpr (not_not.mpr h2)),
      if_neg (hp.not.mpr (not_not.mpr h3)), if_neg (hq.not.mpr (not_not.mpr h4)), if_neg h5]

/-- The loop of `create` succeeds on acceptable orders with ids that are new and distinct. -/
theorem foldlM_checkOrder {instrument : InstrumentId} {orders : List Order} {seen : List OrderId} :
    (∃ s, orders.foldlM (checkOrder instrument) seen = .ok s) ↔
      (∀ o ∈ orders, o.Acceptable instrument) ∧ Fresh (·.id) seen orders := by
  induction orders generalizing seen with
  | nil => simp [pure, Except.pure]
  | cons o orders ih =>
    simp only [List.foldlM_cons, Result.bind_eq_ok, checkOrder_eq_ok, fresh_cons, List.forall_mem_cons]
    constructor
    · rintro ⟨s, s', ⟨ha, hn, rfl⟩, h⟩
      obtain ⟨hall, hfresh⟩ := ih.mp ⟨s, h⟩
      exact ⟨⟨ha, hall⟩, hn, hfresh⟩
    · rintro ⟨⟨ha, hall⟩, hn, hfresh⟩
      obtain ⟨s, hs⟩ := ih.mpr ⟨hall, hfresh⟩
      exact ⟨s, _, ⟨ha, hn, rfl⟩, hs⟩

/-- The orders `create` accepts for a batch of `instrument`. -/
structure Acceptable (instrument : InstrumentId) (orders : List Order) : Prop where
  order : ∀ o ∈ orders, o.Acceptable instrument
  ids_nodup : (orders.map (·.id)).Nodup

theorem create_eq_ok [StdSort] {batchId : BatchId} {instrument : InstrumentId} {orders : List Order}
    {b : Batch} : create batchId instrument orders = .ok b ↔
      Acceptable instrument orders ∧ new batchId instrument orders = b := by
  have hloop : (∃ s, orders.foldlM (checkOrder instrument) [] = .ok s) ↔
      Acceptable instrument orders := by
    rw [foldlM_checkOrder, fresh_nothing_seen]
    exact ⟨fun h => ⟨h.1, h.2⟩, fun h => ⟨h.order, h.ids_nodup⟩⟩
  rw [← hloop]
  simp [create]

theorem Acceptable.perm {instrument : InstrumentId} {l l' : List Order} (hp : l'.Perm l)
    (h : Acceptable instrument l) : Acceptable instrument l' :=
  ⟨fun o ho => h.order o (hp.mem_iff.mp ho), (hp.map _).nodup_iff.mpr h.ids_nodup⟩

/-! ## The canonical order -/

/-- The key the canonical order sorts by. -/
def canonicalKey (o : Order) : U64 ×ₗ U64 := toLex (o.seq, o.id.raw)

theorem canonicalLess_iff (a b : Order) :
    canonicalLess a b = true ↔ canonicalKey a < canonicalKey b := by
  unfold canonicalLess canonicalKey
  rw [Prod.Lex.toLex_lt_toLex]
  split_ifs with h
  · simp [h]
  · have h' : a.seq = b.seq := not_not.mp h
    simp [h']

theorem canonicalKey_inj {l : List Order} (hnd : (l.map (·.id)).Nodup) :
    ∀ a ∈ l, ∀ b ∈ l, canonicalKey a = canonicalKey b → a = b := by
  intro a ha b hb h
  refine List.inj_on_of_nodup_map hnd ha hb ?_
  exact OrderId.ext (congrArg (fun k => (ofLex k).2) h)

/-- Orders numbered by their positions stand in canonical order already. -/
theorem canonical_of_seqs {orders : List Order}
    (h : orders.map (fun o => (o.seq : ℕ)) = List.range orders.length) :
    orders.Pairwise fun a b => canonicalKey a < canonicalKey b := by
  have hlt : (orders.map fun o => (o.seq : ℕ)).Pairwise (· < ·) := by
    rw [h]
    exact List.pairwise_lt_range
  refine (List.pairwise_map.mp hlt).imp fun {a b} hab => ?_
  unfold canonicalKey
  rw [Prod.Lex.toLex_lt_toLex]
  exact Or.inl hab

theorem new_orders_of_seqs [StdSort] {batchId : BatchId} {instrument : InstrumentId}
    {orders : List Order} (h : orders.map (fun o => (o.seq : ℕ)) = List.range orders.length) :
    (new batchId instrument orders).orders = orders := by
  have hs := canonical_of_seqs h
  refine StdSort.sort_eq canonicalKey canonicalLess_iff (fun a ha b hb hab => ?_) (List.Perm.refl _)
    (hs.imp le_of_lt)
  refine List.inj_on_of_nodup_map (f := canonicalKey) ?_ ha hb hab
  exact (List.pairwise_map.mpr hs).imp ne_of_lt

/-- A batch that `create` returns. -/
structure Accepted (b : Batch) : Prop where
  orders : Acceptable b.instrument b.orders
  sorted : b.orders.Pairwise fun a b => canonicalKey a ≤ canonicalKey b

theorem accepted_of_create [StdSort] {batchId : BatchId} {instrument : InstrumentId}
    {orders : List Order} {b : Batch} (h : create batchId instrument orders = .ok b) :
    b.Accepted := by
  obtain ⟨ha, rfl⟩ := create_eq_ok.mp h
  exact ⟨ha.perm (StdSort.sort_perm _ _),
    StdSort.sort_sorted_of_key canonicalKey canonicalLess_iff orders⟩

/-- Canonicalisation forgets the intake order, and does not depend on the `std::sort`. -/
theorem new_eq_of_perm (s s' : StdSort) {batchId : BatchId} {instrument : InstrumentId}
    {l l' : List Order} (hnd : (l.map (·.id)).Nodup) (hp : l'.Perm l) :
    @new s batchId instrument l = @new s' batchId instrument l' := by
  unfold new
  rw [@StdSort.sort_eq s _ _ _ canonicalKey canonicalLess canonicalLess_iff l (s'.sort canonicalLess l')
    (canonicalKey_inj hnd) ((s'.sort_perm _ _).trans hp)
    (@StdSort.sort_sorted_of_key s' _ _ _ canonicalKey canonicalLess canonicalLess_iff l')]

theorem create_perm (s s' : StdSort) (batchId : BatchId) (instrument : InstrumentId)
    {l l' : List Order} (hp : l'.Perm l) (ha : Acceptable instrument l) :
    @create s batchId instrument l = @create s' batchId instrument l' := by
  have h1 := (@create_eq_ok s batchId instrument l _).mpr ⟨ha, rfl⟩
  have h2 := (@create_eq_ok s' batchId instrument l' _).mpr ⟨ha.perm hp, rfl⟩
  rw [h1, h2, new_eq_of_perm s s' ha.ids_nodup hp]

end Batch

/-! ## An example -/

/-- A limit order of instrument 7. -/
def exampleOrder (id account : U64) (side : Side) (price qty seq : U64) : Order :=
  { id := ⟨id⟩, account := ⟨account⟩, instrument := ⟨7⟩, side, price := ⟨price⟩, qty := ⟨qty⟩, seq }

/-- A buy of 10 at 105 against sells of 4 at 100 and 8 at 105. -/
def exampleBatch : Batch where
  batchId := ⟨1⟩
  instrument := ⟨7⟩
  orders := [exampleOrder 1 1 .buy 105 10 0, exampleOrder 2 2 .sell 100 4 1,
    exampleOrder 3 3 .sell 105 8 2]

end FairCross
