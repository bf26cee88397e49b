import FairCross.MarketData.Book
import FairCross.Library.Tally

/-!
# The indexes of the order book

The level maps repeat what the reference map says: the level of a side at a price is the quantity of
the side's resting orders at that price. Each operation is described by what it does to the reference
map alone; the levels follow (`WellFormed`), and so a book is determined by its orders and its clock.
-/

namespace FairCross

open SortedMap

/-! ## The resting quantity -/

/-- What an order adds to the level of `side` at price `p`. -/
def BookOrder.lotsAt (side : Side) (p : U64) (o : BookOrder) : ℕ :=
  if o.side = side ∧ o.price.raw = p then o.shares.raw else 0

/-- What is left of the order after a part of it was executed. -/
def BookOrder.reduced (x : BookOrder) (shares : Qty) : BookOrder :=
  { x with shares := x.shares.saturatingSub shares }

/-- The quantity of the resting orders of `side` at price `p`. -/
def restingAt (orders : SortedMap U64 BookOrder) (side : Side) (p : U64) : ℕ :=
  orders.sum (BookOrder.lotsAt side p)

variable {orders : SortedMap U64 BookOrder} {side : Side} {p r : U64} {o x : BookOrder}

theorem BookOrder.lotsAt_self (o : BookOrder) : o.lotsAt o.side o.price.raw = o.shares.raw := by
  simp [lotsAt]

theorem BookOrder.lotsAt_other_side {o : BookOrder} (h : o.side ≠ side) (p : U64) :
    o.lotsAt side p = 0 := by
  simp [lotsAt, h]

theorem BookOrder.lotsAt_other_price {o : BookOrder} (h : o.price.raw ≠ p) (side : Side) :
    o.lotsAt side p = 0 := by
  simp [lotsAt, h]

theorem restingAt_insert_new (h : orders.find r = none) (o : BookOrder) (side : Side) (p : U64) :
    restingAt (orders.insert r o) side p = restingAt orders side p + o.lotsAt side p := by
  have := sum_insert orders (BookOrder.lotsAt side p) r o
  rw [h] at this
  simpa [restingAt] using this

theorem restingAt_insert_old (h : orders.find r = some x) (o : BookOrder) (side : Side) (p : U64) :
    restingAt (orders.insert r o) side p + x.lotsAt side p =
      restingAt orders side p + o.lotsAt side p := by
  have := sum_insert orders (BookOrder.lotsAt side p) r o
  rw [h] at this
  simpa [restingAt] using this

theorem restingAt_erase (h : orders.find r = some x) (side : Side) (p : U64) :
    restingAt (orders.erase r) side p + x.lotsAt side p = restingAt orders side p := by
  have := sum_erase orders (BookOrder.lotsAt side p) r
  rw [h] at this
  simpa [restingAt] using this

/-- An order is part of what rests at its price. -/
theorem shares_le_restingAt (h : orders.find r = some x) :
    (x.shares.raw : ℕ) ≤ restingAt orders x.side x.price.raw := by
  rw [← x.lotsAt_self]
  exact le_sum orders _ h

/-! ## The invariant -/

/-- What holds of an order stored under `r`. -/
structure BookOrder.Resting (r : U64) (o : BookOrder) : Prop where
  ref : o.orderReferenceNumber = r
  side : o.side = .buy ∨ o.side = .sell
  price_pos : 0 < (o.price.raw : ℕ)
  shares_pos : 0 < (o.shares.raw : ℕ)

/-- Something rests at a price exactly when some order does. -/
theorem restingAt_ne_zero (h : ∀ r o, orders.find r = some o → o.Resting r) :
    restingAt orders side p ≠ 0 ↔
      ∃ r o, orders.find r = some o ∧ o.side = side ∧ o.price.raw = p := by
  constructor
  · intro hne
    by_contra hno
    refine hne (List.sum_eq_zero fun n hn => ?_)
    obtain ⟨⟨r, o⟩, he, rfl⟩ := List.mem_map.mp hn
    by_cases hs : o.side = side
    · by_cases hp : o.price.raw = p
      · exact absurd ⟨r, o, mem_entries.mp he, hs, hp⟩ hno
      · exact BookOrder.lotsAt_other_price hp side
    · exact BookOrder.lotsAt_other_side hs p
  · rintro ⟨r, o, hr, rfl, rfl⟩
    have := shares_le_restingAt hr
    have := (h r o hr).shares_pos
    omega

/-- The representation invariant: the stored orders are resting orders, and each side's levels tally
what rests there. -/
structure OrderBook.WellFormed (b : OrderBook) : Prop where
  resting : ∀ r o, b.ordersByRef.find r = some o → o.Resting r
  levels : ∀ side, side = .buy ∨ side = .sell →
    Tallies (fun q : Qty => (q.raw : ℕ)) (b.levels side) (restingAt b.ordersByRef side)

namespace OrderBook

variable {b b' : OrderBook} {l : LevelMap}

@[simp] theorem setLevels_ordersByRef (b : OrderBook) (side : Side) (l : LevelMap) :
    (b.setLevels side l).ordersByRef = b.ordersByRef := by
  unfold setLevels
  split_ifs <;> rfl

@[simp] theorem setLevels_lastTimestampNanos (b : OrderBook) (side : Side) (l : LevelMap) :
    (b.setLevels side l).lastTimestampNanos = b.lastTimestampNanos := by
  unfold setLevels
  split_ifs <;> rfl

/-- Writing one side's levels leaves the other side's alone. -/
theorem levels_setLevels (b : OrderBook) (l : LevelMap) {side s : Side}
    (hside : side = .buy ∨ side = .sell) (hs : s = .buy ∨ s = .sell) :
    (b.setLevels side l).levels s = if s = side then l else b.levels s := by
  rcases hside with rfl | rfl <;> rcases hs with rfl | rfl <;> simp [setLevels, levels]

/-- The orders stay well formed when one of them is written. -/
theorem resting_insert {orders : SortedMap U64 BookOrder} {ref : U64} {new : BookOrder}
    (h : ∀ r o, orders.find r = some o → o.Resting r) (hnew : new.Resting ref) :
    ∀ r o, (orders.insert ref new).find r = some o → o.Resting r := by
  intro r o ho
  rw [find_insert] at ho
  split_ifs at ho with hr
  · obtain rfl := Option.some.inj ho
    exact hr ▸ hnew
  · exact h r o ho

theorem resting_erase {orders : SortedMap U64 BookOrder} {ref : U64}
    (h : ∀ r o, orders.find r = some o → o.Resting r) :
    ∀ r o, (orders.erase ref).find r = some o → o.Resting r := by
  intro r o ho
  rw [find_erase] at ho
  split_ifs at ho
  exact h r o ho

theorem empty_wellFormed : empty.WellFormed where
  resting r o h := by cases h
  levels side _ := by
    have hlevels : empty.levels side = SortedMap.empty := by unfold levels; split_ifs <;> rfl
    rw [hlevels]
    exact Tallies.empty

namespace WellFormed

/-- The quantity the code reads at a level. -/
theorem levelAt_val (hb : b.WellFormed) (hside : side = .buy ∨ side = .sell) (p : U64) :
    ((levelAt (b.levels side) p).raw : ℕ) = restingAt b.ordersByRef side p :=
  (hb.levels side hside).getD_eq Qty.zero_raw p

/-- The orders and the clock determine the book. -/
theorem ext (hb : b.WellFormed) (hb' : b'.WellFormed) (ho : b.ordersByRef = b'.ordersByRef)
    (ht : b.lastTimestampNanos = b'.lastTimestampNanos) : b = b' := by
  have hval : Function.Injective fun q : Qty => (q.raw : ℕ) := fun _ _ => Qty.ext_val
  have hbids := (hb.levels .buy (.inl rfl)).ext hval (ho ▸ hb'.levels .buy (.inl rfl))
  have hasks := (hb.levels .sell (.inr rfl)).ext hval (ho ▸ hb'.levels .sell (.inr rfl))
  cases b
  cases b'
  simp only [OrderBook.levels, if_true, reduceCtorEq, if_false] at hbids hasks ho ht
  rw [hbids, hasks, ho, ht]

/-- An update of the orders that concerns one side, with that side's levels written anew. -/
theorem update (hb : b.WellFormed) {orders : SortedMap U64 BookOrder}
    (hside : side = .buy ∨ side = .sell) (hrest : ∀ r o, orders.find r = some o → o.Resting r)
    (hl : Tallies (fun q : Qty => (q.raw : ℕ)) l (restingAt orders side))
    (hother : ∀ s, s ≠ side → ∀ p, restingAt orders s p = restingAt b.ordersByRef s p) :
    ({ b with ordersByRef := orders }.setLevels side l).WellFormed where
  resting r o h := by
    rw [setLevels_ordersByRef] at h
    exact hrest r o h
  levels s hs := by
    rw [levels_setLevels _ _ hside hs, setLevels_ordersByRef]
    by_cases h : s = side
    · subst h
      rw [if_pos rfl]
      exact hl
    · rw [if_neg h, show restingAt orders s = restingAt b.ordersByRef s from funext (hother s h)]
      exact hb.levels s hs

/-- The clock is not part of the invariant. -/
theorem setTimestamp (hb : b.WellFormed) (t : U64) :
    { b with lastTimestampNanos := t }.WellFormed := ⟨hb.resting, hb.levels⟩

end WellFormed

/-! ## Accepted and rejected calls -/

/-- A call succeeds, leaves the given orders and keeps the clock. -/
structure Commits (b : OrderBook) (orders : SortedMap U64 BookOrder) (out : OrderBook × Result Unit) :
    Prop where
  ok : out.2 = .ok ()
  wellFormed : out.1.WellFormed
  ordersByRef : out.1.ordersByRef = orders
  lastTimestampNanos : out.1.lastTimestampNanos = b.lastTimestampNanos

/-- A call that concerns one side, whose levels it writes anew. -/
theorem WellFormed.commits (hb : b.WellFormed) {orders : SortedMap U64 BookOrder}
    {out : OrderBook × Result Unit}
    (hout : out = ({ b with ordersByRef := orders }.setLevels side l, .ok ()))
    (hside : side = .buy ∨ side = .sell) (hrest : ∀ r o, orders.find r = some o → o.Resting r)
    (hl : Tallies (fun q : Qty => (q.raw : ℕ)) l (restingAt orders side))
    (hother : ∀ s, s ≠ side → ∀ p, restingAt orders s p = restingAt b.ordersByRef s p) :
    b.Commits orders out := by
  subst hout
  exact ⟨rfl, hb.update hside hrest hl hother, setLevels_ordersByRef .., setLevels_lastTimestampNanos ..⟩

/-- A call fails and leaves the book as it was. -/
def Rejects (b : OrderBook) (out : OrderBook × Result Unit) : Prop := ∃ e, out = (b, .error e)

theorem Rejects.not_ok {out : OrderBook × Result Unit} (h : Rejects b out) : out.2 ≠ .ok () := by
  obtain ⟨e, rfl⟩ := h
  simp

/-! ### Adding -/

/-- The calls of `add_order` that are accepted. -/
structure Addable (orders : SortedMap U64 BookOrder) (refNum : U64) (side : Side) (price : Price)
    (shares : Qty) : Prop where
  side_valid : side = .buy ∨ side = .sell
  price_pos : 0 < (price.raw : ℕ)
  shares_pos : 0 < (shares.raw : ℕ)
  absent : orders.find refNum = none
  fits : restingAt orders side price.raw + shares.raw < 2 ^ 64

variable {refNum : U64} {price : Price} {shares : Qty}

theorem addOrder_commits (hb : b.WellFormed) (h : Addable b.ordersByRef refNum side price shares) :
    b.Commits (b.ordersByRef.insert refNum ⟨refNum, side, price, shares⟩)
      (b.addOrder refNum side price shares) := by
  obtain ⟨hside, hp, hs, hnone, hfit⟩ := h
  have hread := hb.levelAt_val hside price.raw
  obtain ⟨total, htotal, hval⟩ := Qty.exists_checkedAdd (a := levelAt (b.levels side) price.raw)
    (b := shares) (by rw [hread]; exact hfit)
  set new : BookOrder := ⟨refNum, side, price, shares⟩ with hnew
  have hout : b.addOrder refNum side price shares =
      ({ b with ordersByRef := b.ordersByRef.insert refNum new }.setLevels side
        ((b.levels side).insert price.raw total), .ok ()) := by
    have h1 : ¬ (¬ side.isBuy = true ∧ ¬ side.isSell = true) := by
      rcases hside with rfl | rfl <;> simp [Side.isBuy, Side.isSell]
    have h2 : ¬ price.raw = 0 := fun h => by simp [h] at hp
    have h3 : ¬ shares.isZero = true := by rw [Qty.isZero_iff]; omega
    simp only [addOrder, h1, h2, h3, hnone, htotal, emplace_of_none hnone, Option.isSome_none,
      Bool.false_eq_true, if_false]
    rfl
  have hat := restingAt_insert_new hnone new
  refine hb.commits hout hside (resting_insert hb.resting ⟨rfl, hside, hp, hs⟩) ?_ fun s hne q => ?_
  · refine (hb.levels side hside).insert (by omega) fun q => ?_
    rw [hat]
    split_ifs with hq
    · subst hq
      rw [hval, hread, show new.lotsAt side price.raw = shares.raw from new.lotsAt_self]
    · rw [new.lotsAt_other_price hq, Nat.add_zero]
  · rw [hat, new.lotsAt_other_side (Ne.symm hne), Nat.add_zero]

theorem addOrder_rejects (hb : b.WellFormed) (h : ¬ Addable b.ordersByRef refNum side price shares) :
    b.Rejects (b.addOrder refNum side price shares) := by
  unfold addOrder
  split_ifs with h1 h2 h3 h4
  · exact ⟨_, rfl⟩
  · exact ⟨_, rfl⟩
  · exact ⟨_, rfl⟩
  · exact ⟨_, rfl⟩
  · have hside : side = .buy ∨ side = .sell := by
      by_contra hno
      rw [not_or] at hno
      exact h1 ⟨by simpa [Side.isBuy] using hno.1, by simpa [Side.isSell] using hno.2⟩
    have hp : 0 < (price.raw : ℕ) := Nat.pos_of_ne_zero fun h0 => h2 (Fin.ext h0)
    have hs : 0 < (shares.raw : ℕ) := Nat.pos_of_ne_zero fun h0 => h3 (Qty.isZero_iff.mpr h0)
    have hnone : b.ordersByRef.find refNum = none := by simpa using h4
    simp only
    split
    · exact ⟨_, rfl⟩
    · rename_i total htotal
      refine absurd ⟨hside, hp, hs, hnone, ?_⟩ h
      rw [← hb.levelAt_val hside, ← Qty.checkedAdd_eq_ok.mp htotal]
      exact total.raw.isLt

/-! ### Executing -/

/-- The calls of `execute_order` that are accepted; `x` is the order under the reference. -/
structure Executable (orders : SortedMap U64 BookOrder) (refNum : U64) (shares : Qty)
    (x : BookOrder) : Prop where
  present : orders.find refNum = some x
  shares_pos : 0 < (shares.raw : ℕ)
  shares_le : (shares.raw : ℕ) ≤ x.shares.raw

theorem executeOrder_commits_all (hb : b.WellFormed) (h : b.ordersByRef.find refNum = some x) :
    b.Commits (b.ordersByRef.erase refNum) (b.executeOrder refNum x.shares) := by
  obtain ⟨-, hside, hp, hs⟩ := hb.resting _ _ h
  have hread := hb.levelAt_val hside x.price.raw
  have hle : (x.shares.raw : ℕ) ≤ (levelAt (b.levels x.side) x.price.raw).raw := by
    rw [hread]
    exact shares_le_restingAt h
  have hsub := Qty.saturatingSub_val hle
  set rest := (levelAt (b.levels x.side) x.price.raw).saturatingSub x.shares with hrest
  have hout : b.executeOrder refNum x.shares =
      ({ b with ordersByRef := b.ordersByRef.erase refNum }.setLevels x.side
        (if (rest.raw : ℕ) = 0 then (b.levels x.side).erase x.price.raw
          else (b.levels x.side).insert x.price.raw rest), .ok ()) := by
    have h1 : ¬ x.shares.isZero = true := by rw [Qty.isZero_iff]; omega
    have h2 : ¬ x.shares.raw > x.shares.raw := lt_irrefl _
    have hlevel : levelAt ((b.levels x.side).insert x.price.raw rest) x.price.raw = rest := by
      simp [levelAt]
    have herase : ((b.levels x.side).insert x.price.raw rest).erase x.price.raw =
        (b.levels x.side).erase x.price.raw := ext_find fun k => by
      rw [find_erase, find_erase, find_insert]
      split_ifs <;> rfl
    simp only [executeOrder, h]
    rw [if_neg h1, if_neg h2, if_pos trivial, ← hrest, hlevel, herase]
    simp only [Qty.isZero_iff]
    unfold setLevels
    split_ifs <;> rfl
  have hat := restingAt_erase h
  refine hb.commits hout hside (resting_erase hb.resting) ((hb.levels _ hside).write fun q => ?_)
    fun s hne q => ?_
  · have hq := hat x.side q
    split_ifs with hpq
    · rw [← hpq, x.lotsAt_self] at hq
      rw [← hpq]
      omega
    · rwa [x.lotsAt_other_price hpq, Nat.add_zero] at hq
  · have := hat s q
    rwa [x.lotsAt_other_side (Ne.symm hne), Nat.add_zero] at this

theorem executeOrder_commits_part (hb : b.WellFormed) (h : Executable b.ordersByRef refNum shares x)
    (hne : shares ≠ x.shares) :
    b.Commits (b.ordersByRef.insert refNum (x.reduced shares)) (b.executeOrder refNum shares) := by
  obtain ⟨hpres, hs, hsx⟩ := h
  obtain ⟨href, hside, hp, -⟩ := hb.resting _ _ hpres
  have hlt : (shares.raw : ℕ) < x.shares.raw := lt_of_le_of_ne hsx fun he => hne (Qty.ext_val he)
  have hread := hb.levelAt_val hside x.price.raw
  have hxle := shares_le_restingAt hpres
  have hsub := Qty.saturatingSub_val (a := levelAt (b.levels x.side) x.price.raw) (b := shares)
    (by omega)
  have hred : ((x.reduced shares).shares.raw : ℕ) = x.shares.raw - shares.raw :=
    Qty.saturatingSub_val hsx
  set rest := (levelAt (b.levels x.side) x.price.raw).saturatingSub shares with hrest
  have hout : b.executeOrder refNum shares =
      ({ b with ordersByRef := b.ordersByRef.insert refNum (x.reduced shares) }.setLevels x.side
        ((b.levels x.side).insert x.price.raw rest), .ok ()) := by
    have h1 : ¬ shares.isZero = true := by rw [Qty.isZero_iff]; omega
    have h2 : ¬ shares.raw > x.shares.raw := not_lt.mpr hsx
    simp only [executeOrder, hpres]
    rw [if_neg h1, if_neg h2, if_neg hne]
    rfl
  have hat := restingAt_insert_old hpres (x.reduced shares)
  refine hb.commits hout hside (resting_insert hb.resting ⟨href, hside, hp, by omega⟩)
    ((hb.levels _ hside).insert (by omega) fun q => ?_) fun s hne' q => ?_
  · have hq := hat x.side q
    split_ifs with hpq
    · rw [← hpq, x.lotsAt_self,
        show (x.reduced shares).lotsAt x.side x.price.raw = _ from (x.reduced shares).lotsAt_self] at hq
      rw [← hpq]
      omega
    · rw [x.lotsAt_other_price hpq, (x.reduced shares).lotsAt_other_price hpq] at hq
      omega
  · have hq := hat s q
    rw [x.lotsAt_other_side (Ne.symm hne'), (x.reduced shares).lotsAt_other_side (Ne.symm hne')] at hq
    omega

theorem executeOrder_rejects (h : ∀ x, ¬ Executable b.ordersByRef refNum shares x) :
    b.Rejects (b.executeOrder refNum shares) := by
  unfold executeOrder
  cases hx : b.ordersByRef.find refNum with
  | none => exact ⟨_, rfl⟩
  | some x =>
    simp only
    by_cases h1 : shares.isZero = true
    · exact ⟨_, by rw [if_pos h1]⟩
    by_cases h2 : shares.raw > x.shares.raw
    · exact ⟨_, by rw [if_neg h1, if_pos h2]⟩
    refine absurd ⟨hx, ?_, not_lt.mp h2⟩ (h x)
    rw [Qty.isZero_iff] at h1
    omega

theorem deleteOrder_commits (hb : b.WellFormed) (h : b.ordersByRef.find refNum = some x) :
    b.Commits (b.ordersByRef.erase refNum) (b.deleteOrder refNum) := by
  have := executeOrder_commits_all hb h
  simpa only [deleteOrder, h] using this

theorem deleteOrder_rejects (h : b.ordersByRef.find refNum = none) :
    b.Rejects (b.deleteOrder refNum) := by
  unfold deleteOrder
  rw [h]
  exact ⟨_, rfl⟩

/-! ### Replacing -/

/-- The calls of `replace_order` that are accepted; `x` is the original order. The old quantity is
gone before the new one is added. -/
structure Replaceable (orders : SortedMap U64 BookOrder) (origRef newRef : U64) (shares : Qty)
    (price : Price) (x : BookOrder) : Prop where
  present : orders.find origRef = some x
  absent : (orders.erase origRef).find newRef = none
  price_pos : 0 < (price.raw : ℕ)
  shares_pos : 0 < (shares.raw : ℕ)
  fits : restingAt (orders.erase origRef) x.side price.raw + shares.raw < 2 ^ 64

variable {origRef newRef : U64}

/-- The replacement is as good as new: it is absent once the original is gone. -/
theorem find_erase_eq_none_iff :
    (orders.erase origRef).find newRef = none ↔
      ¬ (newRef ≠ origRef ∧ (orders.find newRef).isSome = true) := by
  rw [find_erase]
  by_cases h : origRef = newRef
  · simp [h]
  · simp [h, Ne.symm h]

/-- What `replace_order` reads of the levels, for an original that rests. -/
theorem WellFormed.replace_reads (hb : b.WellFormed) (h : b.ordersByRef.find origRef = some x)
    (newRaw : U64) : ∃ oldLevel oldRemaining : Qty, (b.levels x.side).find x.price.raw = some oldLevel ∧
      oldLevel.checkedSub x.shares = .ok oldRemaining ∧
      (oldRemaining.raw : ℕ) = restingAt (b.ordersByRef.erase origRef) x.side x.price.raw ∧
      ((if newRaw = x.price.raw then oldRemaining else levelAt (b.levels x.side) newRaw).raw : ℕ) =
        restingAt (b.ordersByRef.erase origRef) x.side newRaw := by
  obtain ⟨-, hside, -, hs⟩ := hb.resting _ _ h
  have hle := shares_le_restingAt h
  obtain ⟨oldLevel, hfind, hval⟩ := (hb.levels _ hside).exists_find (k := x.price.raw) (by omega)
  obtain ⟨oldRemaining, hsub, hrem⟩ := Qty.exists_checkedSub (a := oldLevel) (b := x.shares)
    (by omega)
  have hself := restingAt_erase h x.side x.price.raw
  rw [x.lotsAt_self] at hself
  refine ⟨oldLevel, oldRemaining, hfind, hsub, by omega, ?_⟩
  split_ifs with hraw
  · rw [hraw]
    omega
  · have hq := restingAt_erase h x.side newRaw
    rw [x.lotsAt_other_price (Ne.symm hraw), Nat.add_zero] at hq
    rw [hb.levelAt_val hside, hq]

theorem replaceOrder_commits (hb : b.WellFormed)
    (h : Replaceable b.ordersByRef origRef newRef shares price x) :
    b.Commits ((b.ordersByRef.erase origRef).insert newRef ⟨newRef, x.side, price, shares⟩)
      (b.replaceOrder origRef newRef shares price) := by
  obtain ⟨hpres, habs, hp, hs, hfit⟩ := h
  obtain ⟨href, hside, -, -⟩ := hb.resting _ _ hpres
  obtain ⟨oldLevel, oldRemaining, hfind, hsub, hrem, hbase⟩ := hb.replace_reads hpres price.raw
  set base := if price.raw = x.price.raw then oldRemaining else levelAt (b.levels x.side) price.raw
    with hbasedef
  obtain ⟨total, htotal, hval⟩ := Qty.exists_checkedAdd (a := base) (b := shares) (by omega)
  set new : BookOrder := ⟨newRef, x.side, price, shares⟩ with hnew
  set rest := if price.raw ≠ x.price.raw then
      if (oldRemaining.raw : ℕ) = 0 then (b.levels x.side).erase x.price.raw
      else (b.levels x.side).insert x.price.raw oldRemaining
    else b.levels x.side with hrest
  have hout : b.replaceOrder origRef newRef shares price =
      ({ b with ordersByRef := (b.ordersByRef.erase origRef).insert newRef new }.setLevels x.side
        (rest.insert price.raw total), .ok ()) := by
    have h1 := find_erase_eq_none_iff.mp habs
    have h2 : ¬ price.raw = 0 := fun h => by simp [h] at hp
    have h3 : ¬ shares.isZero = true := by rw [Qty.isZero_iff]; omega
    simp only [replaceOrder, hpres]
    rw [if_neg h1, if_neg h2, if_neg h3]
    simp only [hfind, hsub, ← hbasedef, htotal, emplace_of_none habs, Qty.isZero_iff, ← hrest]
    rfl
  have hat := restingAt_insert_new habs new
  refine hb.commits hout hside (resting_insert (resting_erase hb.resting) ⟨rfl, hside, hp, hs⟩) ?_
    fun s hne q => ?_
  · -- what rests without the original, at its price and elsewhere
    have hgone : ∀ q, restingAt (b.ordersByRef.erase origRef) x.side q =
        if x.price.raw = q then (oldRemaining.raw : ℕ) else restingAt b.ordersByRef x.side q := by
      intro q
      split_ifs with hq
      · rw [← hq, hrem]
      · have := restingAt_erase hpres x.side q
        rwa [x.lotsAt_other_price hq, Nat.add_zero] at this
    have hafter : ∀ q, restingAt ((b.ordersByRef.erase origRef).insert newRef new) x.side q =
        if price.raw = q then (total.raw : ℕ) else restingAt (b.ordersByRef.erase origRef) x.side q := by
      intro q
      rw [hat]
      split_ifs with hq
      · rw [← hq, show new.lotsAt x.side price.raw = shares.raw from new.lotsAt_self]
        omega
      · rw [new.lotsAt_other_price hq, Nat.add_zero]
    by_cases hraw : price.raw = x.price.raw
    · rw [hrest, if_neg (by simpa using hraw)]
      refine (hb.levels _ hside).insert (by omega) fun q => ?_
      rw [hafter]
      split_ifs with hq
      · rfl
      · rw [hgone, if_neg (hraw ▸ hq)]
    · rw [hrest, if_pos hraw]
      exact ((hb.levels _ hside).write hgone).insert (by omega) hafter
  · rw [hat, new.lotsAt_other_side (Ne.symm hne), Nat.add_zero]
    have := restingAt_erase hpres s q
    rwa [x.lotsAt_other_side (Ne.symm hne), Nat.add_zero] at this

/-- The errors `replace_order` can return. -/
def replaceErrors : List Error :=
  [.domain .accountNotFound "Original order not in book",
    .domain .duplicateOrderId "Replacement order already in book",
    .primitive .zeroValue "Price", .primitive .zeroValue "Qty",
    .domain .orderValidationFailed "ArithmeticOverflow in Qty::checked_add"]

theorem replaceOrder_rejects (hb : b.WellFormed)
    (h : ∀ x, ¬ Replaceable b.ordersByRef origRef newRef shares price x) :
    ∃ e ∈ replaceErrors, b.replaceOrder origRef newRef shares price = (b, .error e) := by
  unfold replaceOrder
  cases hx : b.ordersByRef.find origRef with
  | none => exact ⟨_, by simp [replaceErrors], rfl⟩
  | some x =>
    simp only
    by_cases h1 : newRef ≠ origRef ∧ (b.ordersByRef.find newRef).isSome
    · exact ⟨.domain .duplicateOrderId "Replacement order already in book", by simp [replaceErrors],
        by rw [if_pos h1]⟩
    by_cases h2 : price.raw = 0
    · exact ⟨.primitive .zeroValue "Price", by simp [replaceErrors], by rw [if_neg h1, if_pos h2]⟩
    by_cases h3 : shares.isZero = true
    · exact ⟨.primitive .zeroValue "Qty", by simp [replaceErrors],
        by rw [if_neg h1, if_neg h2, if_pos h3]⟩
    rw [if_neg h1, if_neg h2, if_neg h3]
    obtain ⟨oldLevel, oldRemaining, hfind, hsub, -, hbase⟩ := hb.replace_reads hx price.raw
    simp only [hfind, hsub]
    split
    · rename_i e he
      obtain rfl := Qty.checkedAdd_error he
      have htext : Error.message (.primitive .arithmeticOverflow "Qty::checked_add") =
          "ArithmeticOverflow in Qty::checked_add" := by decide +kernel
      refine ⟨.domain .orderValidationFailed "ArithmeticOverflow in Qty::checked_add",
        by simp [replaceErrors], ?_⟩
      rw [htext]
      rfl
    · rename_i total htotal
      have hp : 0 < (price.raw : ℕ) := Nat.pos_of_ne_zero fun h0 => h2 (Fin.ext h0)
      have hs : 0 < (shares.raw : ℕ) := Nat.pos_of_ne_zero fun h0 => h3 (Qty.isZero_iff.mpr h0)
      refine absurd ⟨hx, find_erase_eq_none_iff.mpr h1, hp, hs, ?_⟩ (h x)
      rw [← hbase, ← Qty.checkedAdd_eq_ok.mp htotal]
      exact total.raw.isLt

/-! ### Messages -/

/-- The messages a book with the given orders accepts. -/
def Accepts (orders : SortedMap U64 BookOrder) : ItchMessage → Prop
  | .addOrder m =>
    Addable orders m.orderReferenceNumber m.side ⟨toU64 m.priceTicks⟩ ⟨toU64 m.shares⟩
  | .orderExecuted m => ∃ x, Executable orders m.orderReferenceNumber ⟨toU64 m.executedShares⟩ x
  | .orderExecutedWithPrice m =>
    ∃ x, Executable orders m.orderReferenceNumber ⟨toU64 m.executedShares⟩ x
  | .orderCancel m => ∃ x, Executable orders m.orderReferenceNumber ⟨toU64 m.canceledShares⟩ x
  | .orderDelete m => ∃ x, orders.find m.orderReferenceNumber = some x
  | .orderReplace m => ∃ x, Replaceable orders m.originalOrderReferenceNumber
      m.newOrderReferenceNumber ⟨toU64 m.shares⟩ ⟨toU64 m.priceTicks⟩ x
  | .systemEvent _ => True
  | .stockDirectory _ => True

theorem executeOrder_commits (hb : b.WellFormed) (h : Executable b.ordersByRef refNum shares x) :
    ∃ orders, b.Commits orders (b.executeOrder refNum shares) := by
  by_cases hall : shares = x.shares
  · subst hall
    exact ⟨_, executeOrder_commits_all hb h.present⟩
  · exact ⟨_, executeOrder_commits_part hb h hall⟩

variable {msg : ItchMessage}

theorem applyMessage_commits (hb : b.WellFormed) (h : Accepts b.ordersByRef msg) :
    ∃ orders, Commits { b with lastTimestampNanos := msg.timestampNanos } orders
      (b.applyMessage msg) := by
  have hb' := hb.setTimestamp msg.timestampNanos
  cases msg with
  | systemEvent m => exact ⟨_, rfl, hb', rfl, rfl⟩
  | stockDirectory m => exact ⟨_, rfl, hb', rfl, rfl⟩
  | addOrder m => exact ⟨_, addOrder_commits hb' h⟩
  | orderExecuted m => obtain ⟨x, hx⟩ := h; exact executeOrder_commits hb' hx
  | orderExecutedWithPrice m => obtain ⟨x, hx⟩ := h; exact executeOrder_commits hb' hx
  | orderCancel m => obtain ⟨x, hx⟩ := h; exact executeOrder_commits hb' hx
  | orderDelete m => obtain ⟨x, hx⟩ := h; exact ⟨_, deleteOrder_commits hb' hx⟩
  | orderReplace m => obtain ⟨x, hx⟩ := h; exact ⟨_, replaceOrder_commits hb' hx⟩

/-- A rejected message leaves its timestamp behind, and nothing else. -/
theorem applyMessage_rejects (hb : b.WellFormed) (h : ¬ Accepts b.ordersByRef msg) :
    Rejects { b with lastTimestampNanos := msg.timestampNanos } (b.applyMessage msg) := by
  have hb' := hb.setTimestamp msg.timestampNanos
  cases msg with
  | systemEvent m => exact absurd trivial h
  | stockDirectory m => exact absurd trivial h
  | addOrder m => exact addOrder_rejects hb' h
  | orderExecuted m => exact executeOrder_rejects (not_exists.mp h)
  | orderExecutedWithPrice m => exact executeOrder_rejects (not_exists.mp h)
  | orderCancel m => exact executeOrder_rejects (not_exists.mp h)
  | orderDelete m => exact deleteOrder_rejects (Option.eq_none_iff_forall_ne_some.mpr
      fun x hx => h ⟨x, hx⟩)
  | orderReplace m =>
    obtain ⟨e, -, he⟩ := replaceOrder_rejects hb' (not_exists.mp h)
    exact ⟨e, he⟩

/-! ## Every reachable book -/

theorem call_wellFormed (hb : b.WellFormed) (c : BookCall) : (b.call c).1.WellFormed := by
  have hcommits : ∀ {b' : OrderBook} {out : OrderBook × Result Unit},
      (∃ orders, b'.Commits orders out) → out.1.WellFormed := fun ⟨_, h⟩ => h.wellFormed
  have hrejects : ∀ {b : OrderBook} {out : OrderBook × Result Unit}, b.WellFormed → b.Rejects out →
      out.1.WellFormed := fun hb ⟨_, h⟩ => by rw [h]; exact hb
  have hexecute : ∀ r s, (b.executeOrder r s).1.WellFormed := by
    intro r s
    by_cases h : ∃ x, Executable b.ordersByRef r s x
    · obtain ⟨x, hx⟩ := h
      exact hcommits (executeOrder_commits hb hx)
    · exact hrejects hb (executeOrder_rejects (not_exists.mp h))
  cases c with
  | addOrder r side price shares =>
    by_cases h : Addable b.ordersByRef r side price shares
    · exact (addOrder_commits hb h).wellFormed
    · exact hrejects hb (addOrder_rejects hb h)
  | executeOrder r s => exact hexecute r s
  | cancelOrder r s => exact hexecute r s
  | deleteOrder r =>
    cases h : b.ordersByRef.find r with
    | none => exact hrejects hb (deleteOrder_rejects h)
    | some x => exact (deleteOrder_commits hb h).wellFormed
  | replaceOrder o n s p =>
    by_cases h : ∃ x, Replaceable b.ordersByRef o n s p x
    · obtain ⟨x, hx⟩ := h
      exact (replaceOrder_commits hb hx).wellFormed
    · obtain ⟨e, -, he⟩ := replaceOrder_rejects hb (not_exists.mp h)
      exact hrejects hb ⟨e, he⟩
  | applyMessage m =>
    by_cases h : Accepts b.ordersByRef m
    · exact hcommits (applyMessage_commits hb h)
    · exact hrejects (hb.setTimestamp _) (applyMessage_rejects hb h)

theorem run_wellFormed (calls : List BookCall) : (run calls).WellFormed := by
  have hfold : ∀ (calls : List BookCall) (b : OrderBook), b.WellFormed →
      (calls.foldl (fun b c => (b.call c).1) b).WellFormed := by
    intro calls
    induction calls with
    | nil => exact fun b hb => hb
    | cons c calls ih => exact fun b hb => ih _ (call_wellFormed hb c)
  exact hfold calls empty empty_wellFormed

/-- What the three maps of a book say together. -/
structure Consistent (b : OrderBook) : Prop where
  resting : ∀ r o, b.ordersByRef.find r = some o → o.orderReferenceNumber = r ∧
    (o.side = .buy ∨ o.side = .sell) ∧ 0 < (o.price.raw : ℕ) ∧ 0 < (o.shares.raw : ℕ)
  level_iff : ∀ side, side = .buy ∨ side = .sell → ∀ p, ((b.levels side).find p).isSome ↔
    ∃ r o, b.ordersByRef.find r = some o ∧ o.side = side ∧ o.price.raw = p
  level_sum : ∀ side, side = .buy ∨ side = .sell → ∀ p q, (b.levels side).find p = some q →
    (q.raw : ℕ) = restingAt b.ordersByRef side p ∧ q ≠ .zero
  best_bid : ∀ p, b.bestBid = some p →
    IsGreatest {q | ∃ r o, b.ordersByRef.find r = some o ∧ o.side = .buy ∧ o.price = q} p
  best_bid_none : b.bestBid = none → ∀ r o, b.ordersByRef.find r = some o → o.side ≠ .buy
  best_ask : ∀ p, b.bestAsk = some p →
    IsLeast {q | ∃ r o, b.ordersByRef.find r = some o ∧ o.side = .sell ∧ o.price = q} p
  best_ask_none : b.bestAsk = none → ∀ r o, b.ordersByRef.find r = some o → o.side ≠ .sell
  /-- For every execution that passes the checks, neither subtraction saturates. -/
  subtractions : ∀ r x, b.ordersByRef.find r = some x → ∀ shares : Qty,
    (shares.raw : ℕ) ≤ x.shares.raw →
      ((x.shares.saturatingSub shares).raw : ℕ) + shares.raw = x.shares.raw ∧
      (((levelAt (b.levels x.side) x.price.raw).saturatingSub shares).raw : ℕ) + shares.raw =
        (levelAt (b.levels x.side) x.price.raw).raw
  replace_errors : ∀ origRef newRef shares price e,
    (b.replaceOrder origRef newRef shares price).2 = .error e →
      e.message ≠ "Order book index inconsistency" ∧ e.message ≠ "InsufficientBalance for Qty"

theorem replaceErrors_messages : ∀ e ∈ replaceErrors,
    e.message ≠ "Order book index inconsistency" ∧ e.message ≠ "InsufficientBalance for Qty" := by
  decide +kernel

/-- The prices of one side's level map are the prices of its resting orders. -/
theorem WellFormed.level_iff (hb : b.WellFormed) (hside : side = .buy ∨ side = .sell) (p : U64) :
    ((b.levels side).find p).isSome ↔
      ∃ r o, b.ordersByRef.find r = some o ∧ o.side = side ∧ o.price.raw = p :=
  (hb.levels side hside).isSome_iff.trans (restingAt_ne_zero hb.resting)

/-- The prices at which a side rests. -/
theorem WellFormed.prices_eq (hb : b.WellFormed) (hside : side = .buy ∨ side = .sell) :
    {q : Price | ∃ r o, b.ordersByRef.find r = some o ∧ o.side = side ∧ o.price = q} =
      Price.mk '' {p | ((b.levels side).find p).isSome} := by
  ext q
  rw [Set.mem_image]
  constructor
  · rintro ⟨r, o, hr, hs, rfl⟩
    exact ⟨o.price.raw, (hb.level_iff hside _).mpr ⟨r, o, hr, hs, rfl⟩, rfl⟩
  · rintro ⟨p, hp, rfl⟩
    obtain ⟨r, o, hr, hs, hraw⟩ := (hb.level_iff hside p).mp hp
    exact ⟨r, o, hr, hs, Price.ext hraw⟩

theorem WellFormed.not_side_of_empty (hb : b.WellFormed) (hside : side = .buy ∨ side = .sell)
    (h : ∀ p, (b.levels side).find p = none) (r : U64) (o : BookOrder)
    (hr : b.ordersByRef.find r = some o) : o.side ≠ side := by
  intro hs
  have := (hb.level_iff hside o.price.raw).mpr ⟨r, o, hr, hs, rfl⟩
  rw [h] at this
  cases this

theorem WellFormed.consistent (hb : b.WellFormed) : b.Consistent where
  resting r o h := ⟨(hb.resting r o h).ref, (hb.resting r o h).side, (hb.resting r o h).price_pos,
    (hb.resting r o h).shares_pos⟩
  level_iff side hside p := hb.level_iff hside p
  level_sum side hside p q h := by
    obtain ⟨hval, hne⟩ := (hb.levels side hside).val_eq h
    refine ⟨hval, fun hz => hne ?_⟩
    rw [← hval, hz]
    rfl
  best_bid p h := by
    obtain ⟨k, hk, rfl⟩ := Option.map_eq_some_iff.mp h
    rw [hb.prices_eq (.inl rfl)]
    have hmono : Monotone Price.mk := fun _ _ h => h
    exact hmono.map_isGreatest (isGreatest_of_lastKey hk)
  best_bid_none h := hb.not_side_of_empty (.inl rfl) (lastKey_eq_none.mp (Option.map_eq_none_iff.mp h))
  best_ask p h := by
    obtain ⟨k, hk, rfl⟩ := Option.map_eq_some_iff.mp h
    rw [hb.prices_eq (.inr rfl)]
    have hmono : Monotone Price.mk := fun _ _ h => h
    exact hmono.map_isLeast (isLeast_of_firstKey hk)
  best_ask_none h :=
    hb.not_side_of_empty (.inr rfl) (firstKey_eq_none.mp (Option.map_eq_none_iff.mp h))
  subtractions r x hx shares hle := by
    have hlevel := hb.levelAt_val (hb.resting r x hx).side x.price.raw
    have hxle := shares_le_restingAt hx
    rw [Qty.saturatingSub_val hle, Qty.saturatingSub_val (by omega)]
    omega
  replace_errors origRef newRef shares price e h := by
    by_cases hx : ∃ x, Replaceable b.ordersByRef origRef newRef shares price x
    · obtain ⟨x, hx⟩ := hx
      rw [(replaceOrder_commits hb hx).ok] at h
      cases h
    · obtain ⟨e', he', hout⟩ := replaceOrder_rejects hb (not_exists.mp hx)
      rw [hout] at h
      obtain rfl := Except.error.inj h
      exact replaceErrors_messages _ he'

/-- **The indexes agree in every reachable book.** After any sequence of calls, rejected ones included,
the level maps hold exactly what rests on each side at each price, the best prices are those of the
resting orders, and no subtraction saturates or fails. -/
theorem run_consistent (calls : List BookCall) : (run calls).Consistent :=
  (run_wellFormed calls).consistent

/-- **A rejected message leaves its timestamp.** A reachable book is as it was after every message it
rejects exactly when the message carries the timestamp the book already has. -/
theorem applyMessage_untouched_iff (calls : List BookCall) (msg : ItchMessage) :
    ((∃ e, ((run calls).applyMessage msg).2 = .error e) →
      ((run calls).applyMessage msg).1 = run calls) ↔
    Accepts (run calls).ordersByRef msg ∨ msg.timestampNanos = (run calls).lastTimestampNanos := by
  have hb := run_wellFormed calls
  by_cases h : Accepts (run calls).ordersByRef msg
  · obtain ⟨orders, hout⟩ := applyMessage_commits hb h
    refine ⟨fun _ => .inl h, fun _ hrej => ?_⟩
    obtain ⟨e, he⟩ := hrej
    rw [hout.ok] at he
    cases he
  · obtain ⟨e, he⟩ := applyMessage_rejects hb h
    rw [he]
    constructor
    · intro hsame
      exact .inr (congrArg OrderBook.lastTimestampNanos (hsame ⟨e, rfl⟩))
    · rintro (hacc | htime) -
      · exact absurd hacc h
      · rw [htime]

/-- Deleting an order from the empty book fails and moves its clock. -/
theorem applyMessage_leaves_timestamp :
    ((run []).applyMessage (.orderDelete ⟨0, 0, 5, 1⟩)).2 =
      .error (.domain .accountNotFound "Order not in book") ∧
    ((run []).applyMessage (.orderDelete ⟨0, 0, 5, 1⟩)).1 ≠ run [] ∧
    ((run []).applyMessage (.orderDelete ⟨0, 0, 5, 1⟩)).1.lastTimestampNanos = 5 := by
  decide +kernel

/-- Replacing is accepted exactly when adding is, once the original is gone. -/
theorem replaceable_iff (hb : b.WellFormed) (h : b.ordersByRef.find origRef = some x) :
    Replaceable b.ordersByRef origRef newRef shares price x ↔
      Addable (b.ordersByRef.erase origRef) newRef x.side price shares := by
  constructor
  · intro hr
    exact ⟨(hb.resting _ _ h).side, hr.price_pos, hr.shares_pos, hr.absent, hr.fits⟩
  · intro ha
    exact ⟨h, ha.absent, ha.price_pos, ha.shares_pos, ha.fits⟩

/-- **Replacing is deleting and adding.** From every reachable book, `replace_order` succeeds exactly
when deleting the original and adding the new order on its side both do, and leaves the same book; when
it fails it leaves the book as it was. -/
theorem replaceOrder_eq_delete_add (calls : List BookCall) (origRef newRef : U64) (shares : Qty)
    (price : Price) :
    (((run calls).replaceOrder origRef newRef shares price).2 = .ok () ↔
      ∃ x, (run calls).ordersByRef.find origRef = some x ∧
        ((run calls).deleteOrder origRef).2 = .ok () ∧
        (((run calls).deleteOrder origRef).1.addOrder newRef x.side price shares).2 = .ok ()) ∧
    (((run calls).replaceOrder origRef newRef shares price).2 = .ok () →
      ∀ x, (run calls).ordersByRef.find origRef = some x →
        ((run calls).replaceOrder origRef newRef shares price).1 =
          (((run calls).deleteOrder origRef).1.addOrder newRef x.side price shares).1) ∧
    (((run calls).replaceOrder origRef newRef shares price).2 ≠ .ok () →
      ((run calls).replaceOrder origRef newRef shares price).1 = run calls) := by
  have hb := run_wellFormed calls
  set b := run calls
  by_cases h : ∃ x, Replaceable b.ordersByRef origRef newRef shares price x
  · obtain ⟨x, hx⟩ := h
    have hreplace := replaceOrder_commits hb hx
    have hdelete := deleteOrder_commits hb hx.present
    have hadd : (b.deleteOrder origRef).1.Commits _ _ := addOrder_commits hdelete.wellFormed
      (hdelete.ordersByRef ▸ (replaceable_iff hb hx.present).mp hx)
    refine ⟨⟨fun _ => ⟨x, hx.present, hdelete.ok, hadd.ok⟩, fun _ => hreplace.ok⟩, fun _ y hy => ?_,
      fun hne => absurd hreplace.ok hne⟩
    obtain rfl := Option.some.inj (hx.present.symm.trans hy)
    refine hreplace.wellFormed.ext hadd.wellFormed ?_ ?_
    · rw [hreplace.ordersByRef, hadd.ordersByRef, hdelete.ordersByRef]
    · rw [hreplace.lastTimestampNanos, hadd.lastTimestampNanos, hdelete.lastTimestampNanos]
  · obtain ⟨e, -, he⟩ := replaceOrder_rejects hb (not_exists.mp h)
    have hne : (b.replaceOrder origRef newRef shares price).2 ≠ .ok () := by rw [he]; simp
    refine ⟨⟨fun hok => absurd hok hne, ?_⟩, fun hok => absurd hok hne, fun _ => by rw [he]⟩
    rintro ⟨x, hx, -, hok⟩
    have hdelete := deleteOrder_commits hb hx
    have hno : ¬ Addable (b.deleteOrder origRef).1.ordersByRef newRef x.side price shares := by
      rw [hdelete.ordersByRef]
      exact fun ha => h ⟨x, (replaceable_iff hb hx).mpr ha⟩
    exact absurd hok (addOrder_rejects hdelete.wellFormed hno).not_ok

end OrderBook

end FairCross
