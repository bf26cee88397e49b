import FairCross.MarketData.Proofs.BookProofs
import FairCross.MarketData.Proofs.ReplayProofs
import FairCross.MarketData.Resting

/-!
# The book and its resting orders

The book does what the map of resting orders does, as long as every price level fits 64 bits
(`applyMessage_ok_iff`). Messages that name different orders therefore change places without a trace,
apart from the clock.
-/

namespace FairCross

open LocalAction SortedMap

/-! ## Messages are local -/

namespace Resting

theorem add_local (refNum : U64) (side : Side) (price : Price) (shares : Qty) :
    IsLocal {refNum} (add refNum side price shares) := by
  constructor
  · intro s s' h k hk
    unfold add at h
    split_ifs at h
    obtain rfl := Option.some.inj h
    exact Function.update_of_ne hk _ _
  · intro s s' t h hst
    have heq : t refNum = s refNum := hst refNum rfl
    unfold add at h ⊢
    rw [heq]
    split_ifs at h ⊢
    obtain rfl := Option.some.inj h
    refine ⟨_, rfl, ?_⟩
    rintro k rfl
    simp

theorem execute_local (refNum : U64) (shares : Qty) : IsLocal {refNum} (execute refNum shares) := by
  constructor
  · intro s s' h k hk
    obtain ⟨x, -, h⟩ := Option.bind_eq_some_iff.mp h
    split_ifs at h
    all_goals
      obtain rfl := Option.some.inj h
      exact Function.update_of_ne hk _ _
  · intro s s' t h hst
    have heq : t refNum = s refNum := hst refNum rfl
    obtain ⟨x, hx, h⟩ := Option.bind_eq_some_iff.mp h
    unfold execute
    rw [heq, hx, Option.bind_some]
    split_ifs at h ⊢
    all_goals
      obtain rfl := Option.some.inj h
      refine ⟨_, rfl, ?_⟩
      rintro k rfl
      simp

theorem delete_local (refNum : U64) : IsLocal {refNum} (delete refNum) := by
  constructor
  · intro s s' h k hk
    obtain ⟨x, -, h⟩ := Option.bind_eq_some_iff.mp h
    obtain rfl := Option.some.inj h
    exact Function.update_of_ne hk _ _
  · intro s s' t h hst
    have heq : t refNum = s refNum := hst refNum rfl
    obtain ⟨x, hx, h⟩ := Option.bind_eq_some_iff.mp h
    obtain rfl := Option.some.inj h
    unfold delete
    rw [heq, hx]
    refine ⟨_, rfl, ?_⟩
    rintro k rfl
    simp

theorem replace_local (origRef newRef : U64) (shares : Qty) (price : Price) :
    IsLocal {origRef, newRef} (replace origRef newRef shares price) := by
  constructor
  · intro s s' h k hk
    obtain ⟨hk1, hk2⟩ := not_or.mp hk
    obtain ⟨x, -, h⟩ := Option.bind_eq_some_iff.mp h
    split_ifs at h
    obtain rfl := Option.some.inj h
    rw [Function.update_of_ne hk2, Function.update_of_ne hk1]
  · intro s s' t h hst
    obtain ⟨x, hx, h⟩ := Option.bind_eq_some_iff.mp h
    have hpair : ∀ k ∈ ({origRef, newRef} : Set U64),
        Function.update t origRef none k = Function.update s origRef none k := by
      intro k hk
      rcases eq_or_ne k origRef with rfl | hne
      · simp
      · rw [Function.update_of_ne hne, Function.update_of_ne hne, hst k hk]
    unfold replace
    rw [hst origRef (.inl rfl), hx, Option.bind_some, hpair newRef (.inr rfl)]
    split_ifs at h ⊢
    obtain rfl := Option.some.inj h
    refine ⟨_, rfl, fun k hk => ?_⟩
    rcases eq_or_ne k newRef with rfl | hne
    · simp
    · rw [Function.update_of_ne hne, Function.update_of_ne hne, hpair k hk]

end Resting

/-- A message reads and writes nothing but the orders it names. -/
theorem ItchMessage.act_local (msg : ItchMessage) : IsLocal msg.cells msg.act := by
  have hidle : IsLocal (∅ : Set U64) (some : Action U64 (Option BookOrder)) := by
    constructor
    · intro s s' h k _
      rw [Option.some.inj h]
    · intro s s' t _ _
      exact ⟨t, rfl, fun _ hk => absurd hk (Set.notMem_empty _)⟩
  cases msg with
  | addOrder m => exact Resting.add_local ..
  | orderExecuted m => exact Resting.execute_local ..
  | orderExecutedWithPrice m => exact Resting.execute_local ..
  | orderCancel m => exact Resting.execute_local ..
  | orderDelete m => exact Resting.delete_local ..
  | orderReplace m => exact Resting.replace_local ..
  | systemEvent m => exact hidle
  | stockDirectory m => exact hidle

/-! ## One call -/

/-- Every price level fits 64 bits. -/
def Fits (orders : SortedMap U64 BookOrder) : Prop :=
  ∀ side, side = .buy ∨ side = .sell → ∀ p, restingAt orders side p < 2 ^ 64

namespace OrderBook

variable {b : OrderBook} {orders : SortedMap U64 BookOrder} {refNum origRef newRef : U64} {side : Side}
  {price : Price} {shares : Qty} {f : Action U64 (Option BookOrder)} {out : OrderBook × Result Unit}

theorem WellFormed.fits (hb : b.WellFormed) : Fits b.ordersByRef := by
  intro side hside p
  rw [← hb.levelAt_val hside]
  exact (levelAt (b.levels side) p).raw.isLt

/-- A call commits what the action makes of the orders, provided that it fits. -/
def Refines (b : OrderBook) (f : Action U64 (Option BookOrder)) (out : OrderBook × Result Unit) : Prop :=
  ∀ orders, b.Commits orders out ↔ f b.ordersByRef.find = some orders.find ∧ Fits orders

/-- It is enough to know what a committed call leaves, and that nothing else is possible. -/
theorem refines_of_commits {orders : SortedMap U64 BookOrder} (hout : b.Commits orders out)
    (hf : f b.ordersByRef.find = some orders.find) : Refines b f out := by
  intro orders'
  constructor
  · intro h
    obtain rfl : orders' = orders := h.ordersByRef.symm.trans hout.ordersByRef
    exact ⟨hf, hout.ordersByRef ▸ hout.wellFormed.fits⟩
  · rintro ⟨h, -⟩
    obtain rfl := find_injective (Option.some.inj (hf.symm.trans h))
    exact hout

theorem refines_of_rejects (hout : b.Rejects out)
    (hf : ∀ orders, f b.ordersByRef.find = some orders.find → ¬ Fits orders) : Refines b f out :=
  fun orders => ⟨fun h => absurd h.ok hout.not_ok, fun ⟨h, hfit⟩ => absurd hfit (hf orders h)⟩

theorem addOrder_refines (hb : b.WellFormed) :
    Refines b (Resting.add refNum side price shares) (b.addOrder refNum side price shares) := by
  by_cases h : Addable b.ordersByRef refNum side price shares
  · refine refines_of_commits (addOrder_commits hb h) ?_
    have hp : price.raw ≠ 0 := fun h0 => by simpa [h0] using h.price_pos
    have hs : ¬ shares.isZero = true := by
      have := h.shares_pos
      rw [Qty.isZero_iff]
      omega
    rw [find_insert_eq_update]
    exact if_pos ⟨h.side_valid, hp, hs, h.absent⟩
  · refine refines_of_rejects (addOrder_rejects hb h) fun orders ho hfits => h ?_
    unfold Resting.add at ho
    split_ifs at ho with hg
    obtain ⟨hside, hp, hs, hnone⟩ := hg
    rw [← find_insert_eq_update] at ho
    obtain rfl := find_injective (Option.some.inj ho)
    refine ⟨hside, Nat.pos_of_ne_zero fun h0 => hp (Fin.ext h0),
      Nat.pos_of_ne_zero fun h0 => hs (Qty.isZero_iff.mpr h0), hnone, ?_⟩
    have hat := hfits side hside price.raw
    rw [restingAt_insert_new hnone] at hat
    rwa [show BookOrder.lotsAt side price.raw ⟨refNum, side, price, shares⟩ = shares.raw from
      BookOrder.lotsAt_self ⟨refNum, side, price, shares⟩] at hat

theorem executeOrder_refines (hb : b.WellFormed) :
    Refines b (Resting.execute refNum shares) (b.executeOrder refNum shares) := by
  by_cases h : ∃ x, Executable b.ordersByRef refNum shares x
  · obtain ⟨x, hx⟩ := h
    have hs : ¬ shares.isZero = true ∧ shares.raw ≤ x.shares.raw := by
      have := hx.shares_pos
      rw [Qty.isZero_iff]
      exact ⟨by omega, hx.shares_le⟩
    by_cases hall : shares = x.shares
    · subst hall
      refine refines_of_commits (executeOrder_commits_all hb hx.present) ?_
      rw [find_erase_eq_update, Resting.execute, hx.present, Option.bind_some, if_pos hs,
        if_pos rfl]
    · refine refines_of_commits (executeOrder_commits_part hb hx hall) ?_
      rw [find_insert_eq_update, Resting.execute, hx.present, Option.bind_some, if_pos hs,
        if_neg hall]
      rfl
  · refine refines_of_rejects (executeOrder_rejects (not_exists.mp h)) fun orders ho _ => h ?_
    obtain ⟨x, hx, ho⟩ := Option.bind_eq_some_iff.mp ho
    split_ifs at ho with hg
    all_goals
      exact ⟨x, hx, Nat.pos_of_ne_zero fun h0 => hg.1 (Qty.isZero_iff.mpr h0), hg.2⟩

theorem deleteOrder_refines (hb : b.WellFormed) :
    Refines b (Resting.delete refNum) (b.deleteOrder refNum) := by
  cases h : b.ordersByRef.find refNum with
  | none =>
    refine refines_of_rejects (deleteOrder_rejects h) fun orders ho _ => ?_
    rw [Resting.delete, h] at ho
    cases ho
  | some x =>
    refine refines_of_commits (deleteOrder_commits hb h) ?_
    rw [find_erase_eq_update, Resting.delete, h, Option.bind_some]

theorem replaceOrder_refines (hb : b.WellFormed) :
    Refines b (Resting.replace origRef newRef shares price)
      (b.replaceOrder origRef newRef shares price) := by
  by_cases h : ∃ x, Replaceable b.ordersByRef origRef newRef shares price x
  · obtain ⟨x, hx⟩ := h
    refine refines_of_commits (replaceOrder_commits hb hx) ?_
    have hp : price.raw ≠ 0 := fun h0 => by simpa [h0] using hx.price_pos
    have hs : ¬ shares.isZero = true := by
      have := hx.shares_pos
      rw [Qty.isZero_iff]
      omega
    have habs := hx.absent
    rw [find_erase_eq_update] at habs
    rw [find_insert_eq_update, find_erase_eq_update, Resting.replace, hx.present,
      Option.bind_some, if_pos ⟨hp, hs, habs⟩]
  · obtain ⟨e, -, he⟩ := replaceOrder_rejects hb (not_exists.mp h)
    refine refines_of_rejects ⟨e, he⟩ fun orders ho hfits => h ?_
    obtain ⟨x, hx, ho⟩ := Option.bind_eq_some_iff.mp ho
    split_ifs at ho with hg
    obtain ⟨hp, hs, habs⟩ := hg
    rw [← find_erase_eq_update] at ho habs
    rw [← find_insert_eq_update] at ho
    obtain rfl := find_injective (Option.some.inj ho)
    refine ⟨x, hx, habs, Nat.pos_of_ne_zero fun h0 => hp (Fin.ext h0),
      Nat.pos_of_ne_zero fun h0 => hs (Qty.isZero_iff.mpr h0), ?_⟩
    have hat := hfits x.side (hb.resting _ _ hx).side price.raw
    rw [restingAt_insert_new habs] at hat
    rwa [show BookOrder.lotsAt x.side price.raw ⟨newRef, x.side, price, shares⟩ = shares.raw from
      BookOrder.lotsAt_self ⟨newRef, x.side, price, shares⟩] at hat

/-- **One message does to the book what it does to the resting orders**, and sets the clock. -/
theorem applyMessage_refines (hb : b.WellFormed) (msg : ItchMessage) :
    Refines { b with lastTimestampNanos := msg.timestampNanos } msg.act (b.applyMessage msg) := by
  have hb' := hb.setTimestamp msg.timestampNanos
  cases msg with
  | addOrder m => exact addOrder_refines hb'
  | orderExecuted m => exact executeOrder_refines hb'
  | orderExecutedWithPrice m => exact executeOrder_refines hb'
  | orderCancel m => exact executeOrder_refines hb'
  | orderDelete m => exact deleteOrder_refines hb'
  | orderReplace m => exact replaceOrder_refines hb'
  | systemEvent m => exact refines_of_commits ⟨rfl, hb', rfl, rfl⟩ rfl
  | stockDirectory m => exact refines_of_commits ⟨rfl, hb', rfl, rfl⟩ rfl

/-- A message is committed or rejected. -/
theorem applyMessage_cases (hb : b.WellFormed) (msg : ItchMessage) :
    (∃ orders, Commits { b with lastTimestampNanos := msg.timestampNanos } orders (b.applyMessage msg)) ∨
    Rejects { b with lastTimestampNanos := msg.timestampNanos } (b.applyMessage msg) := by
  by_cases h : Accepts b.ordersByRef msg
  · exact .inl (applyMessage_commits hb h)
  · exact .inr (applyMessage_rejects hb h)

end OrderBook

/-! ## A replay -/

/-- The messages leave resting orders whose price levels fit. -/
def Fitting (s : Resting) (ms : List ItchMessage) : Prop :=
  ∃ orders : SortedMap U64 BookOrder, run ItchMessage.act ms s = some orders.find ∧ Fits orders

/-- Where a replay from the book `b` stops: behind the `k` messages that fit, in front of one that does
not. That one still sets the clock. -/
structure StopsBehind (b : OrderBook) (ms : List ItchMessage) (history : List BboQuote)
    (out : ItchReplayEngine × Result Unit) (k : ℕ) : Prop where
  le : k ≤ ms.length
  fitting : ∀ j ≤ k, Fitting b.ordersByRef.find (ms.take j)
  stops : k < ms.length → ¬ Fitting b.ordersByRef.find (ms.take (k + 1))
  orders : run ItchMessage.act (ms.take k) b.ordersByRef.find = some out.1.book.ordersByRef.find
  wellFormed : out.1.book.WellFormed
  clock : out.1.book.lastTimestampNanos =
    ((ms.take (k + 1)).getLast?.map ItchMessage.timestampNanos).getD b.lastTimestampNanos
  ok_iff : out.2 = .ok () ↔ k = ms.length
  quotes : out.1.bboHistory.length = history.length + k

theorem replayMessages_stopsBehind {e : ItchReplayEngine} (hb : e.book.WellFormed)
    (ms : List ItchMessage) :
    ∃ k, StopsBehind e.book ms e.bboHistory (e.replayMessages ms) k := by
  induction ms generalizing e with
  | nil =>
    refine ⟨0, le_rfl, fun j _ => ?_, fun h => absurd h (lt_irrefl _), rfl, hb, rfl,
      iff_of_true rfl rfl, rfl⟩
    rw [List.take_nil]
    exact ⟨e.book.ordersByRef, rfl, hb.fits⟩
  | cons msg ms ih =>
    have hstart : Fitting e.book.ordersByRef.find [] := ⟨e.book.ordersByRef, rfl, hb.fits⟩
    rw [ItchReplayEngine.replayMessages]
    rcases e.step_cases msg with ⟨b', happly, hstep⟩ | ⟨b', err, happly, hstep⟩
    · obtain ⟨orders, hc⟩ := (OrderBook.applyMessage_cases hb msg).resolve_right
        fun hrej => hrej.not_ok (by rw [happly])
      have hact := ((OrderBook.applyMessage_refines hb msg orders).mp hc).1
      rw [happly] at hc
      obtain rfl : b'.ordersByRef = orders := hc.ordersByRef
      have hrun : ∀ l, run ItchMessage.act (msg :: l) e.book.ordersByRef.find =
          run ItchMessage.act l b'.ordersByRef.find := by
        intro l
        rw [run_cons]
        exact (congrArg (Option.bind · _) hact).trans (Option.bind_some ..)
      have hfitting : ∀ l, Fitting e.book.ordersByRef.find (msg :: l) ↔ Fitting b'.ordersByRef.find l :=
        fun l => by simp only [Fitting, hrun]
      obtain ⟨k, h⟩ := @ih ⟨b', e.bboHistory ++ [b'.bbo]⟩ hc.wellFormed
      rw [hstep]
      refine ⟨k + 1, Nat.succ_le_succ h.le, fun j hj => ?_, fun hk hfit => ?_, ?_, h.wellFormed, ?_, ?_,
        ?_⟩
      · cases j with
        | zero => exact hstart
        | succ j => exact (hfitting _).mpr (h.fitting j (Nat.le_of_succ_le_succ hj))
      · exact h.stops (Nat.lt_of_succ_lt_succ hk) ((hfitting _).mp hfit)
      · exact (hrun _).trans h.orders
      · rw [h.clock, hc.lastTimestampNanos, List.take_succ_cons, List.getLast?_cons, Option.map_some,
          Option.getD_some]
        exact (Option.getD_map ItchMessage.timestampNanos msg _)
      · rw [h.ok_iff, List.length_cons, Nat.add_right_cancel_iff]
      · rw [h.quotes, List.length_append, List.length_singleton]
        omega
    · have hrej := (OrderBook.applyMessage_cases hb msg).resolve_left (by
        rintro ⟨orders, hc⟩
        simpa [happly] using hc.ok)
      have hstop : ¬ Fitting e.book.ordersByRef.find [msg] := by
        rintro ⟨orders, ho, hfits⟩
        rw [run_cons, Option.bind_eq_some_iff] at ho
        obtain ⟨s, hs, ho⟩ := ho
        obtain rfl := Option.some.inj ho
        exact hrej.not_ok ((OrderBook.applyMessage_refines hb msg orders).mpr ⟨hs, hfits⟩).ok
      obtain ⟨err', hout⟩ := hrej
      obtain ⟨rfl, -⟩ := Prod.mk.inj (happly.symm.trans hout)
      rw [hstep]
      refine ⟨0, Nat.zero_le _, fun j hj => ?_, fun _ => hstop, rfl, hb.setTimestamp _, rfl, ?_, rfl⟩
      · obtain rfl := Nat.le_zero.mp hj
        exact hstart
      · refine iff_of_false ?_ ?_
        · intro h
          cases h
        · intro h
          cases h

/-- **A replay refines the map of resting orders.** From every reachable book, a replay does what its
messages do to the resting orders, up to the first message that the map refuses or that takes a price
level beyond 64 bits. It succeeds exactly when there is no such message; there is one quote for every
message before it, and what is left is a well-formed book of the map's orders. -/
theorem replayMessages_refines (calls : List BookCall) (history : List BboQuote) (ms : List ItchMessage) :
    ∃ k, StopsBehind (OrderBook.run calls) ms history
      (ItchReplayEngine.replayMessages ⟨OrderBook.run calls, history⟩ ms) k :=
  replayMessages_stopsBehind (e := ⟨OrderBook.run calls, history⟩) (OrderBook.run_wellFormed calls) ms

/-! ## Room for every message -/

/-- The resting shares of all orders. -/
def restingShares (orders : SortedMap U64 BookOrder) : ℕ := orders.sum fun o => o.shares.raw

/-- No price level holds more than all levels together. -/
theorem fits_of_restingShares {orders : SortedMap U64 BookOrder} (h : restingShares orders < 2 ^ 64) :
    Fits orders := by
  refine fun side _ p => lt_of_le_of_lt (List.sum_le_sum fun e _ => ?_) h
  unfold BookOrder.lotsAt
  split_ifs
  · exact le_rfl
  · exact Nat.zero_le _

section Room

variable {orders : SortedMap U64 BookOrder} {r origRef newRef : U64} {side : Side} {price : Price}
  {shares : Qty} {s : Resting} {x : BookOrder} {msg : ItchMessage}

theorem restingShares_insert (orders : SortedMap U64 BookOrder) (r : U64) (o : BookOrder) :
    restingShares (orders.insert r o) ≤ restingShares orders + o.shares.raw :=
  Nat.le_of_add_right_le (sum_insert orders (fun o => (o.shares.raw : ℕ)) r o).le

theorem restingShares_erase (orders : SortedMap U64 BookOrder) (r : U64) :
    restingShares (orders.erase r) ≤ restingShares orders :=
  Nat.le_of_add_right_le (sum_erase orders (fun o => (o.shares.raw : ℕ)) r).le

/-- A part of an order that is executed does not come back. -/
theorem restingShares_reduced (h : orders.find r = some x) (hle : (shares.raw : ℕ) ≤ x.shares.raw) :
    restingShares (orders.insert r (x.reduced shares)) ≤ restingShares orders := by
  have hsum := sum_insert orders (fun o => (o.shares.raw : ℕ)) r (x.reduced shares)
  have hval : ((x.reduced shares).shares.raw : ℕ) = x.shares.raw - shares.raw :=
    Qty.saturatingSub_val hle
  rw [h, Option.map_some, Option.getD_some, hval] at hsum
  unfold restingShares
  omega

theorem execute_orders (h : Resting.execute r shares orders.find = some s) :
    ∃ orders' : SortedMap U64 BookOrder, s = orders'.find ∧
      restingShares orders' ≤ restingShares orders := by
  obtain ⟨x, hx, h⟩ := Option.bind_eq_some_iff.mp h
  split_ifs at h with hg hall
  · obtain rfl := Option.some.inj h
    exact ⟨orders.erase r, (find_erase_eq_update ..).symm, restingShares_erase ..⟩
  · obtain rfl := Option.some.inj h
    exact ⟨orders.insert r (x.reduced shares), (find_insert_eq_update ..).symm,
      restingShares_reduced hx hg.2⟩

/-- A message brings in no more than the shares it carries. -/
theorem ItchMessage.act_orders (h : msg.act orders.find = some s) :
    ∃ orders' : SortedMap U64 BookOrder, s = orders'.find ∧
      restingShares orders' ≤ restingShares orders + msg.sharesAdded := by
  have h32 : ∀ n : U32, ((toU64 n : U64) : ℕ) = n := fun n => by
    rw [toU64_val, Nat.mod_eq_of_lt]
    exact n.isLt.trans (by norm_num)
  cases msg with
  | addOrder m =>
    rw [ItchMessage.act, Resting.add] at h
    split_ifs at h
    obtain rfl := Option.some.inj h
    refine ⟨_, (find_insert_eq_update ..).symm, (restingShares_insert ..).trans ?_⟩
    exact Nat.add_le_add_left (h32 m.shares).le _
  | orderExecuted m => exact execute_orders h
  | orderExecutedWithPrice m => exact execute_orders h
  | orderCancel m => exact execute_orders h
  | orderDelete m =>
    obtain ⟨x, -, h⟩ := Option.bind_eq_some_iff.mp h
    obtain rfl := Option.some.inj h
    exact ⟨_, (find_erase_eq_update ..).symm, restingShares_erase ..⟩
  | orderReplace m =>
    obtain ⟨x, -, h⟩ := Option.bind_eq_some_iff.mp h
    split_ifs at h
    obtain rfl := Option.some.inj h
    refine ⟨(orders.erase m.originalOrderReferenceNumber).insert m.newOrderReferenceNumber
      ⟨m.newOrderReferenceNumber, x.side, ⟨toU64 m.priceTicks⟩, ⟨toU64 m.shares⟩⟩, ?_,
      (restingShares_insert ..).trans ?_⟩
    · rw [find_insert_eq_update, find_erase_eq_update]
    · exact Nat.add_le_add (restingShares_erase ..) (h32 m.shares).le
  | systemEvent m => exact ⟨orders, (Option.some.inj h).symm, le_rfl⟩
  | stockDirectory m => exact ⟨orders, (Option.some.inj h).symm, le_rfl⟩

theorem run_orders {ms : List ItchMessage} (h : run ItchMessage.act ms orders.find = some s) :
    ∃ orders' : SortedMap U64 BookOrder, s = orders'.find ∧
      restingShares orders' ≤ restingShares orders + (ms.map ItchMessage.sharesAdded).sum := by
  induction ms generalizing orders with
  | nil => exact ⟨orders, (Option.some.inj h).symm, le_rfl⟩
  | cons msg ms ih =>
    rw [run_cons, Option.bind_eq_some_iff] at h
    obtain ⟨t, ht, h⟩ := h
    obtain ⟨orders', rfl, hle⟩ := ItchMessage.act_orders ht
    obtain ⟨orders'', hs, hle'⟩ := ih h
    rw [List.map_cons, List.sum_cons]
    exact ⟨orders'', hs, by omega⟩

/-- With room for all shares, messages fit unless the map refuses one of them. -/
theorem fitting_iff_of_room {ms : List ItchMessage}
    (hroom : restingShares orders + (ms.map ItchMessage.sharesAdded).sum < 2 ^ 64) :
    Fitting orders.find ms ↔ (run ItchMessage.act ms orders.find).isSome := by
  constructor
  · rintro ⟨orders', h, -⟩
    rw [h]
    rfl
  · intro h
    obtain ⟨s, hs⟩ := Option.isSome_iff_exists.mp h
    obtain ⟨orders', rfl, hle⟩ := run_orders hs
    exact ⟨orders', hs, fits_of_restingShares (lt_of_le_of_lt hle hroom)⟩

end Room

/-- With room for all shares, a replay succeeds unless the map refuses a message. -/
theorem replayMessages_ok_iff {e : ItchReplayEngine} (hb : e.book.WellFormed) {ms : List ItchMessage}
    (hroom : restingShares e.book.ordersByRef + (ms.map ItchMessage.sharesAdded).sum < 2 ^ 64) :
    (e.replayMessages ms).2 = .ok () ↔ (run ItchMessage.act ms e.book.ordersByRef.find).isSome := by
  obtain ⟨k, h⟩ := replayMessages_stopsBehind hb ms
  rw [h.ok_iff]
  constructor
  · rintro rfl
    have horders := h.orders
    rw [List.take_length] at horders
    rw [horders]
    rfl
  · intro hsome
    by_contra hne
    have hk := lt_of_le_of_ne h.le hne
    refine h.stops hk ((fitting_iff_of_room (lt_of_le_of_lt ?_ hroom)).mpr ?_)
    · exact Nat.add_le_add_left (((List.take_sublist _ _).map _).sum_le_sum fun _ _ => Nat.zero_le _) _
    · obtain ⟨s, hs⟩ := Option.isSome_iff_exists.mp hsome
      rw [← List.take_append_drop (k + 1) ms, run_append, Option.bind_eq_some_iff] at hs
      obtain ⟨t, ht, -⟩ := hs
      rw [ht]
      rfl

/-- **Messages that name different orders may change places.** When neighbouring messages with no
reference in common are exchanged, any number of times, two replays that both succeed leave the same
book, the clock apart. With room for all shares, one of them succeeds exactly when the other does. -/
theorem replayMessages_rearranged {ms ms' : List ItchMessage} (h : Rearranged ItchMessage.cells ms ms')
    (calls : List BookCall) (history : List BboQuote) :
    let out := ItchReplayEngine.replayMessages ⟨OrderBook.run calls, history⟩ ms
    let out' := ItchReplayEngine.replayMessages ⟨OrderBook.run calls, history⟩ ms'
    (out.2 = .ok () → out'.2 = .ok () →
      { out.1.book with lastTimestampNanos := 0 } = { out'.1.book with lastTimestampNanos := 0 }) ∧
    (restingShares (OrderBook.run calls).ordersByRef + (ms.map ItchMessage.sharesAdded).sum < 2 ^ 64 →
      (out.2 = .ok () ↔ out'.2 = .ok ())) := by
  set b := OrderBook.run calls with hbdef
  have hb : b.WellFormed := OrderBook.run_wellFormed calls
  have hrun := h.run_eq ItchMessage.act_local b.ordersByRef.find
  constructor
  · intro hok hok'
    obtain ⟨k, hk⟩ := replayMessages_stopsBehind (e := ⟨b, history⟩) hb ms
    obtain ⟨k', hk'⟩ := replayMessages_stopsBehind (e := ⟨b, history⟩) hb ms'
    have horders := hk.orders
    have horders' := hk'.orders
    rw [hk.ok_iff.mp hok, List.take_length] at horders
    rw [hk'.ok_iff.mp hok', List.take_length] at horders'
    rw [hrun, horders'] at horders
    exact (hk.wellFormed.setTimestamp 0).ext (hk'.wellFormed.setTimestamp 0)
      (find_injective (Option.some.inj horders).symm) rfl
  · intro hroom
    have hroom' := hroom
    rw [(h.perm.map ItchMessage.sharesAdded).sum_eq] at hroom'
    rw [replayMessages_ok_iff (e := ⟨b, history⟩) hb hroom,
      replayMessages_ok_iff (e := ⟨b, history⟩) hb hroom', hrun]

/-- Two orders may be added either way round. -/
theorem replayMessages_rearranged_example :
    let ten : ItchMessage := .addOrder ⟨0, 0, 1, 7, .buy, 10, ⟨List.replicate 8 32, rfl⟩, 100, none⟩
    let five : ItchMessage := .addOrder ⟨0, 0, 2, 8, .sell, 5, ⟨List.replicate 8 32, rfl⟩, 101, none⟩
    let start : ItchReplayEngine := ⟨OrderBook.run [], []⟩
    (start.replayMessages [five, ten]).2 = .ok () ∧
    { (start.replayMessages [ten, five]).1.book with lastTimestampNanos := 0 } =
      { (start.replayMessages [five, ten]).1.book with lastTimestampNanos := 0 } := by
  intro ten five start
  have hswap : Rearranged ItchMessage.cells [ten, five] [five, ten] :=
    .swap [] [] (Set.disjoint_singleton.mpr (by decide))
  have hok : (start.replayMessages [ten, five]).2 = .ok () := by decide +kernel
  have hok' := ((replayMessages_rearranged hswap [] []).2 (by decide +kernel)).mp hok
  exact ⟨hok', (replayMessages_rearranged hswap [] []).1 hok hok'⟩

end FairCross
