import FairCross.Engine.Proofs.BatchProofs
import FairCross.Engine.Proofs.SettlementProofs
import FairCross.Simulator.Generator

/-!
# What a generated session looks like

A draw from a range stays in the range, whatever the generator is (`exists_genRangeU64`). From that an
order is well formed when it is drawn, a batch by induction over its orders, and a session by induction
over its batches; the ids are the numbers from one on, through all batches. A count above what a vector
can hold ends the run with an exception, and nothing else does.
-/

namespace FairCross

open CountedLoop in
theorem reserve_finishes {size : ℕ} {count : U64} {E : NoResult → Prop}
    (h : maxSize size < count → E .lengthError) :
    Finishes (fun _ => (count : ℕ) ≤ maxSize size) E (reserve size count) := by
  unfold reserve
  by_cases hle : (count : ℕ) > maxSize size
  · rw [if_pos hle]
    exact .error (h hle)
  · rw [if_neg hle]
    exact .ok (not_lt.mp hle)

namespace DeterministicRng

/-- The range the size of which is not a 64-bit number. -/
def FullRange (lo hi : U64) : Prop := (lo : ℕ) = 0 ∧ (hi : ℕ) + 1 = 2 ^ 64

instance (lo hi : U64) : Decidable (FullRange lo hi) := inferInstanceAs (Decidable (_ ∧ _))

theorem spanOf_val {lo hi : U64} (hle : lo ≤ hi) (hfull : ¬ FullRange lo hi) :
    (spanOf lo hi : ℕ) = hi - lo + 1 := by
  have hhi := hi.isLt
  have hval : ((hi - lo : U64) : ℕ) = hi - lo := Fin.sub_val_of_le hle
  unfold spanOf
  rw [Fin.val_add, hval]
  refine Nat.mod_eq_of_lt ?_
  show (hi : ℕ) - lo + 1 < 2 ^ 64
  by_contra hge
  exact hfull ⟨by omega, by omega⟩

/-- A draw is in its range. A range turned round gives its first end. -/
theorem exists_genRangeU64 (rng : DeterministicRng) (lo hi : U64) (hfull : ¬ FullRange lo hi) :
    ∃ r rng', rng.genRangeU64 lo hi = .ok (r, rng') ∧ lo ≤ r ∧ r ≤ max lo hi := by
  unfold genRangeU64
  by_cases hge : lo ≥ hi
  · exact ⟨lo, rng, if_pos hge, le_refl _, le_max_left _ _⟩
  have hle : lo ≤ hi := le_of_lt (not_le.mp hge)
  have hspan := spanOf_val hle hfull
  have hne : ¬ spanOf lo hi = 0 := by
    intro h
    rw [h] at hspan
    exact absurd hspan (by simp)
  refine ⟨_, _, by rw [if_neg hge, if_neg hne], ?_⟩
  have hmod : ((rng.nextU64.1 % spanOf lo hi : U64) : ℕ) < spanOf lo hi := by
    rw [Fin.mod_val]
    exact Nat.mod_lt _ (by omega)
  have hlo : (lo : ℕ) ≤ hi := hle
  have hhi := hi.isLt
  have hsum : ((lo + rng.nextU64.1 % spanOf lo hi : U64) : ℕ) =
      lo + (rng.nextU64.1 % spanOf lo hi : U64) := by
    rw [Fin.val_add, Nat.mod_eq_of_lt (by omega)]
  rw [max_eq_right hle]
  constructor
  · rw [Fin.le_def, hsum]
    exact Nat.le_add_right _ _
  · rw [Fin.le_def, hsum]
    omega

end DeterministicRng

namespace SyntheticOrderFlowSimulator

open CountedLoop DeterministicRng

theorem orderPrice_pos (midRaw delta : U64) (isBuy : Bool) : 0 < (orderPrice midRaw delta isBuy : ℕ) := by
  have hone : (1 : U64) ≤ orderPrice midRaw delta isBuy := le_max_right _ _
  exact hone

/-- Configurations with sampling ranges the generator can draw from. -/
structure Admissible (config : SyntheticFlowConfig) : Prop where
  qty_pos : 1 ≤ (config.minOrderQty.raw : ℕ)
  qty_le : config.minOrderQty.raw ≤ config.maxOrderQty.raw
  orders : ¬ FullRange config.minOrdersPerBatch config.maxOrdersPerBatch
  spread : ¬ FullRange 0 config.priceSpreadTicks

/-! ## One order -/

section Orders

variable {config : SyntheticFlowConfig} {numAccs : U64}

/-- An order the generator draws. -/
structure OrderDrawn (config : SyntheticFlowConfig) (numAccs : U64) (o : Order) : Prop where
  acceptable : o.Acceptable config.instrumentId
  account_pos : 1 ≤ o.account.raw
  account_le : o.account.raw ≤ numAccs
  qty_ge : (config.minOrderQty.raw : ℕ) ≤ o.qty.raw
  qty_le : (o.qty.raw : ℕ) ≤ config.maxOrderQty.raw

theorem exists_drawOrder (hconfig : Admissible config) (haccs : 1 ≤ numAccs) (d : OrderDraws) {seq : ℕ}
    (hseq : seq < 2 ^ 64) :
    ∃ rng order salt, drawOrder config numAccs d seq =
        .ok ⟨rng, d.globalOrderId + 1, d.orders ++ [order], d.preimages ++ [⟨order, salt⟩]⟩ ∧
      order.id = ⟨d.globalOrderId⟩ ∧ (order.seq : ℕ) = seq ∧ OrderDrawn config numAccs order := by
  obtain ⟨accId, rng1, hacc, hacc1, haccN⟩ := d.rng.exists_genRangeU64 1 numAccs
    (fun h => by have := h.1; simp at this)
  set draw := rng1.genBoolPermille config.buyProbabilityPermille with hdrawDef
  obtain ⟨delta, rng2, hdelta, -, -⟩ := draw.2.exists_genRangeU64 _ _ hconfig.spread
  obtain ⟨qtyRaw, rng3, hqty, hqty1, hqtyN⟩ := rng2.exists_genRangeU64 config.minOrderQty.raw
    config.maxOrderQty.raw (fun h => by have := hconfig.qty_pos; have := h.1; omega)
  let order : Order :=
    { id := ⟨d.globalOrderId⟩, account := ⟨accId⟩, instrument := config.instrumentId
      side := if draw.1 then .buy else .sell
      price := ⟨orderPrice config.priceMid.raw delta draw.1⟩, qty := ⟨qtyRaw⟩, seq := toU64 seq }
  have hdraw : drawOrder config numAccs d seq = .ok ⟨rng3.genSalt.2, d.globalOrderId + 1,
      d.orders ++ [order], d.preimages ++ [⟨order, rng3.genSalt.1⟩]⟩ := by
    simp only [drawOrder, hacc, bind, Except.bind, ← hdrawDef, hdelta, hqty]
    rfl
  have hsideOk : order.side = .buy ∨ order.side = .sell := by
    show (if draw.1 then Side.buy else Side.sell) = .buy ∨ (if draw.1 then Side.buy else Side.sell) = .sell
    by_cases hbuy : draw.1
    · exact Or.inl (if_pos hbuy)
    · exact Or.inr (if_neg hbuy)
  have hqtyPos : 0 < (qtyRaw : ℕ) := lt_of_lt_of_le hconfig.qty_pos hqty1
  refine ⟨rng3.genSalt.2, order, rng3.genSalt.1, hdraw, rfl, ?_, ?_⟩
  · show (toU64 seq : ℕ) = seq
    rw [toU64_val, Nat.mod_eq_of_lt hseq]
  · rw [max_eq_right haccs] at haccN
    rw [max_eq_right hconfig.qty_le] at hqtyN
    exact ⟨⟨rfl, hsideOk, orderPrice_pos _ _ _, hqtyPos⟩, hacc1, haccN, hqty1, hqtyN⟩

/-! ## The orders of one batch -/

/-- The `n` order ids from the number `first` on. -/
def idsFrom (first n : ℕ) : List OrderId := (List.range' first n).map fun i => ⟨toU64 i⟩

theorem toU64_succ (n : ℕ) : toU64 n + 1 = toU64 (n + 1) := by
  apply Fin.ext
  rw [Fin.val_add, toU64_val, toU64_val]
  exact Nat.mod_add_mod n _ 1

theorem idsFrom_succ (first n : ℕ) : idsFrom first (n + 1) = idsFrom first n ++ [⟨toU64 (first + n)⟩] := by
  rw [idsFrom, List.range'_concat, List.map_append, Nat.one_mul]
  rfl

theorem idsFrom_append (first m n : ℕ) : idsFrom first m ++ idsFrom (first + m) n = idsFrom first (m + n) := by
  rw [idsFrom, idsFrom, idsFrom, ← List.map_append, List.range'_append_1]

/-- Numbers that fit 64 bits are different ids. -/
theorem nodup_idsFrom {first n : ℕ} (h : first + n ≤ 2 ^ 64) : (idsFrom first n).Nodup := by
  refine List.Nodup.map_on (fun i hi j hj hij => ?_) List.nodup_range'
  have hi := List.mem_range'_1.mp hi
  have hj := List.mem_range'_1.mp hj
  have hval : (toU64 i : ℕ) = toU64 j := congrArg (fun id : OrderId => (id.raw : ℕ)) hij
  rw [toU64_val, toU64_val, Nat.mod_eq_of_lt (by omega), Nat.mod_eq_of_lt (by omega)] at hval
  exact hval

/-- The loop over the orders of a batch, behind `n` rounds. -/
structure OrdersDrawn (config : SyntheticFlowConfig) (numAccs : U64) (first n : ℕ) (d : OrderDraws) :
    Prop where
  next : d.globalOrderId = toU64 (first + n)
  ids : d.orders.map (·.id) = idsFrom first n
  seqs : d.orders.map (fun o => (o.seq : ℕ)) = List.range n
  preimages : d.preimages.map (·.order) = d.orders
  order : ∀ o ∈ d.orders, OrderDrawn config numAccs o

theorem exists_drawOrders (hconfig : Admissible config) (haccs : 1 ≤ numAccs) (rng : DeterministicRng)
    (first : ℕ) (count : U64) :
    ∃ d, (List.range count).foldlM (drawOrder config numAccs) ⟨rng, toU64 first, [], []⟩ = .ok d ∧
      OrdersDrawn config numAccs first count d := by
  refine Finishes.exists_ok (Finishes.foldlM_range (OrdersDrawn config numAccs first)
    (fun n d hn hd => ?_) ⟨rfl, rfl, rfl, rfl, fun o ho => by cases ho⟩)
  obtain ⟨rng', order, salt, hdraw, hid, hseq, horder⟩ := exists_drawOrder hconfig haccs d
    (hn.trans count.isLt)
  rw [hdraw]
  refine .ok ⟨?_, ?_, ?_, ?_, ?_⟩
  · show d.globalOrderId + 1 = toU64 (first + n + 1)
    rw [hd.next, toU64_succ]
  · rw [List.map_append, hd.ids, idsFrom_succ, List.map_singleton, hid, hd.next]
  · rw [List.map_append, hd.seqs, List.range_succ, List.map_singleton, hseq]
  · rw [List.map_append, hd.preimages, List.map_singleton]
  · intro o ho
    rcases List.mem_append.mp ho with ho | ho
    · exact hd.order o ho
    · rw [List.mem_singleton.mp ho]
      exact horder

end Orders

/-! ## The batches -/

section Batches

variable [StdSort] {config : SyntheticFlowConfig} {numAccs : U64}

/-- A bundle the generator makes. -/
structure BundleDrawn (config : SyntheticFlowConfig) (numAccs : U64) (b : SyntheticBatchBundle) : Prop where
  instrument : b.batch.instrument = config.instrumentId
  seqs : b.batch.orders.map (fun o => (o.seq : ℕ)) = List.range b.batch.orders.length
  preimages : b.preimages.map (·.order) = b.batch.orders
  order : ∀ o ∈ b.batch.orders, OrderDrawn config numAccs o
  count_le : b.batch.orders.length ≤ (max config.minOrdersPerBatch config.maxOrdersPerBatch : U64)

/-- A batch of this configuration can have more orders than a vector of preimages holds. -/
def TooLarge (config : SyntheticFlowConfig) (e : NoResult) : Prop :=
  e = .lengthError ∧ maxSize SaltedOrderPreimage.sizeof <
    (max config.minOrdersPerBatch config.maxOrdersPerBatch : U64)

theorem drawBatch_finishes (hconfig : Admissible config) (haccs : 1 ≤ numAccs) (batchIdx : U64)
    (d : BatchDraws) {first : ℕ} (hnext : d.globalOrderId = toU64 first) :
    Finishes (fun d' => ∃ rng b, d' = ⟨rng, toU64 (first + b.batch.orders.length), d.batches ++ [b]⟩ ∧
      BundleDrawn config numAccs b ∧ b.batch.batchId = ⟨batchIdx⟩ ∧
      b.batch.orders.map (·.id) = idsFrom first b.batch.orders.length) (TooLarge config)
      (drawBatch config numAccs batchIdx d) := by
  obtain ⟨count, rng, hcount, -, hle⟩ := d.rng.exists_genRangeU64 _ _ hconfig.orders
  obtain ⟨drawn, hdrawn, hd⟩ := exists_drawOrders hconfig haccs rng first count
  have hlen : drawn.orders.length = count := by
    have := congrArg List.length hd.seqs
    rwa [List.length_map, List.length_range] at this
  have hseqs : drawn.orders.map (fun o => (o.seq : ℕ)) = List.range drawn.orders.length := by
    rw [hlen, hd.seqs]
  have horders : (Batch.new ⟨batchIdx⟩ config.instrumentId drawn.orders).orders = drawn.orders :=
    Batch.new_orders_of_seqs hseqs
  have hcountLe : (count : ℕ) ≤ (max config.minOrdersPerBatch config.maxOrdersPerBatch : U64) := hle
  have hpreimages : maxSize SaltedOrderPreimage.sizeof < count → TooLarge config .lengthError :=
    fun h => ⟨rfl, h.trans_le hcountLe⟩
  have hordersLt : maxSize Order.sizeof < count → TooLarge config .lengthError := fun h =>
    hpreimages (lt_of_le_of_lt (by decide) h)
  unfold drawBatch
  rw [hcount]
  refine Finishes.bind (.ok (P := fun draw => draw = (count, rng)) rfl) ?_
  rintro _ rfl
  refine (reserve_finishes hordersLt).bind fun _ _ => (reserve_finishes hpreimages).bind fun _ _ => ?_
  rw [hnext, hdrawn]
  refine .ok ⟨drawn.rng, ⟨Batch.new ⟨batchIdx⟩ config.instrumentId drawn.orders, drawn.preimages,
    kStartTimeNanos + batchIdx * 100000000⟩, ?_, ⟨rfl, ?_, ?_, ?_, ?_⟩, rfl, ?_⟩
  · rw [horders, hlen, ← hd.next]
  · rw [horders, hseqs]
  · rw [horders, hd.preimages]
  · rw [horders]
    exact hd.order
  · rw [horders, hlen]
    exact hle
  · rw [horders, hlen, hd.ids]

/-- The loop over the batches, before the round for batch `k`. -/
structure BatchesDrawn (config : SyntheticFlowConfig) (numAccs : U64) (k : ℕ) (d : BatchDraws) : Prop where
  next : d.globalOrderId = toU64 (1 + (d.batches.flatMap fun b => b.batch.orders).length)
  ids : (d.batches.flatMap fun b => b.batch.orders.map (·.id)) =
    idsFrom 1 (d.batches.flatMap fun b => b.batch.orders).length
  batchIds : d.batches.map (fun b => (b.batch.batchId.raw : ℕ)) = List.range' 1 d.batches.length
  count : d.batches.length + 1 = k
  bundle : ∀ b ∈ d.batches, BundleDrawn config numAccs b

theorem drawBatches_finishes (hconfig : Admissible config) (haccs : 1 ≤ numAccs)
    (rng : DeterministicRng) (hend : (config.numBatches : ℕ) + 1 < 2 ^ 64) :
    Finishes (BatchesDrawn config numAccs (config.numBatches + 1)) (TooLarge config)
      (forUpTo .endless config.numBatches (drawBatch config numAccs) 1 ⟨rng, 1, []⟩) := by
  refine Finishes.forUpTo (BatchesDrawn config numAccs) hend (fun k d hk hd => ?_)
    (Nat.le_add_left 1 _) ⟨rfl, rfl, rfl, rfl, fun b hb => by cases hb⟩
  refine (drawBatch_finishes hconfig haccs k d hd.next).mono ?_
  rintro d' ⟨rng', b, rfl, hb, hid, hids⟩
  refine ⟨?_, ?_, ?_, ?_, ?_⟩
  · rw [List.flatMap_append, List.flatMap_singleton, List.length_append, Nat.add_assoc]
  · rw [List.flatMap_append, List.flatMap_append, List.flatMap_singleton, List.flatMap_singleton,
      List.length_append, hd.ids, hids, idsFrom_append]
  · have hk : (k : ℕ) = 1 + d.batches.length := by have := hd.count; omega
    rw [List.map_append, hd.batchIds, List.map_singleton, hid, hk, List.length_append,
      List.length_singleton, List.range'_concat, Nat.one_mul]
  · rw [List.length_append, List.length_singleton, hd.count]
  · intro b' hb'
    rcases List.mem_append.mp hb' with hb' | hb'
    · exact hd.bundle b' hb'
    · rw [List.mem_singleton.mp hb']
      exact hb

end Batches

/-! ## The genesis ledger -/

theorem genesisAccount_id (config : SyntheticFlowConfig) (accIdx : U64) :
    (genesisAccount config accIdx).id = ⟨accIdx⟩ := by
  unfold genesisAccount
  dsimp only
  split
  · rename_i acc hacc
    obtain ⟨q, -, rfl⟩ := AccountState.creditInventory_eq_ok.mp hacc
    rfl
  · rfl

/-- The loop over the accounts. -/
abbrev genesisRound (config : SyntheticFlowConfig) (accIdx : U64) (ledger : Ledger) :
    Except NoResult Ledger :=
  .ok (ledger.insertAccount (genesisAccount config accIdx))

theorem exists_genesisLedger (config : SyntheticFlowConfig) {numAccs : U64}
    (hend : (numAccs : ℕ) + 1 < 2 ^ 64) :
    ∃ ledger, forUpTo .endless numAccs (genesisRound config) 1 Ledger.empty = .ok ledger ∧
      ∀ accIdx : U64, 1 ≤ accIdx → accIdx ≤ numAccs → (ledger.getAccount ⟨accIdx⟩).isSome := by
  let I (k : ℕ) (l : Ledger) : Prop := ∀ accIdx : U64, 1 ≤ accIdx → (accIdx : ℕ) < k →
    (l.getAccount ⟨accIdx⟩).isSome
  have hround : ∀ (k : U64) (l : Ledger), k ≤ numAccs → I k l →
      Finishes (I (k + 1)) (fun _ => False) (genesisRound config k l) := by
    refine fun k l _ hl => .ok fun accIdx hpos hlt => ?_
    unfold Ledger.getAccount Ledger.insertAccount
    rw [genesisAccount_id, SortedMap.find_insert]
    by_cases heq : (⟨k⟩ : AccountId) = ⟨accIdx⟩
    · rw [if_pos heq]
      rfl
    · rw [if_neg heq]
      have hne : (k : ℕ) ≠ accIdx := fun h => heq (AccountId.ext (Fin.ext h))
      exact hl accIdx hpos (by omega)
  have hinit : I 1 Ledger.empty := by
    intro accIdx hpos hlt
    have hpos : 1 ≤ (accIdx : ℕ) := hpos
    omega
  obtain ⟨ledger, hrun, hledger⟩ := (Finishes.forUpTo I hend hround (k := 1) (Nat.le_add_left 1 _)
    hinit).exists_ok
  exact ⟨ledger, hrun, fun accIdx hpos hle => hledger accIdx hpos (Nat.lt_succ_of_le hle)⟩

/-! ## The session -/

section Session

variable [StdSort] {config : SyntheticFlowConfig}

/-- A bundle whose batch passes the checks, and whose preimages are those of its orders. -/
structure BundleWellFormed (config : SyntheticFlowConfig) (ledger : Ledger) (b : SyntheticBatchBundle) :
    Prop where
  accepted : Batch.create b.batch.batchId b.batch.instrument b.batch.orders = .ok b.batch
  account : ∀ o ∈ b.batch.orders, (ledger.getAccount o.account).isSome
  qty : ∀ o ∈ b.batch.orders, config.minOrderQty.raw ≤ o.qty.raw ∧ o.qty.raw ≤ config.maxOrderQty.raw
  price_pos : ∀ o ∈ b.batch.orders, 0 < (o.price.raw : ℕ)
  seqs : b.batch.orders.map (fun o => (o.seq : ℕ)) = List.range b.batch.orders.length
  preimages : b.preimages.map (·.order) = b.batch.orders

structure WellFormed (config : SyntheticFlowConfig) (session : SyntheticSession) : Prop where
  batchIds : session.batches.map (fun b => (b.batch.batchId.raw : ℕ)) = List.range' 1 config.numBatches
  orderIds : (session.batches.flatMap fun b => b.batch.orders.map (·.id)).Nodup
  bundle : ∀ b ∈ session.batches, BundleWellFormed config session.genesisLedger b

/-- The orders of all batches. -/
def totalOrders (session : SyntheticSession) : ℕ :=
  (session.batches.flatMap fun b => b.batch.orders).length

omit [StdSort] in
theorem numAccs_end : ((max config.numAccounts 2 : U64) : ℕ) + 1 < 2 ^ 64 ↔
    (config.numAccounts : ℕ) + 1 < 2 ^ 64 := by
  rw [Fin.coe_max]
  show max (config.numAccounts : ℕ) 2 + 1 < 2 ^ 64 ↔ _
  omega

theorem generateSession_eq : generateSession config =
    ((forUpTo .endless (max config.numAccounts 2) (genesisRound config) 1 Ledger.empty) >>= fun ledger =>
      reserve SyntheticBatchBundle.sizeof config.numBatches >>= fun _ =>
      (forUpTo .endless config.numBatches (drawBatch config (max config.numAccounts 2)) 1
        ⟨⟨config.seed⟩, 1, []⟩) >>= fun drawn => .ok ⟨config, ledger, drawn.batches⟩) := rfl

theorem BundleDrawn.wellFormed {numAccs : U64} {ledger : Ledger} {b : SyntheticBatchBundle}
    (hb : BundleDrawn config numAccs b) (hids : (b.batch.orders.map (·.id)).Nodup)
    (hledger : ∀ accIdx : U64, 1 ≤ accIdx → accIdx ≤ numAccs → (ledger.getAccount ⟨accIdx⟩).isSome) :
    BundleWellFormed config ledger b := by
  refine ⟨?_, fun o ho => ?_, fun o ho => ?_, fun o ho => ?_, hb.seqs, hb.preimages⟩
  · refine Batch.create_eq_ok.mpr ⟨⟨fun o ho => ?_, hids⟩, ?_⟩
    · rw [hb.instrument]
      exact (hb.order o ho).acceptable
    · have horders : (Batch.new b.batch.batchId b.batch.instrument b.batch.orders).orders = b.batch.orders :=
        Batch.new_orders_of_seqs hb.seqs
      show (⟨b.batch.batchId, b.batch.instrument,
        (Batch.new b.batch.batchId b.batch.instrument b.batch.orders).orders⟩ : Batch) = b.batch
      rw [horders]
  · exact hledger o.account.raw (hb.order o ho).account_pos (hb.order o ho).account_le
  · exact ⟨(hb.order o ho).qty_ge, (hb.order o ho).qty_le⟩
  · exact (hb.order o ho).acceptable.price_pos

/-- The accounts and the batches of a session, from loops that end. -/
theorem generateSession_finishes (hconfig : Admissible config)
    (haccs : (config.numAccounts : ℕ) + 1 < 2 ^ 64)
    (hbatches : (config.numBatches : ℕ) ≤ maxSize SyntheticBatchBundle.sizeof) :
    Finishes (fun session => totalOrders session ≤
        config.numBatches * (max config.minOrdersPerBatch config.maxOrdersPerBatch : U64) ∧
        (totalOrders session < 2 ^ 64 → WellFormed config session))
      (TooLarge config) (generateSession config) := by
  obtain ⟨ledger, hgenesis, hledger⟩ := exists_genesisLedger config (numAccs_end.mpr haccs)
  have hpos : 1 ≤ max config.numAccounts 2 := le_trans (show (1 : U64) ≤ 2 by decide) (le_max_right _ _)
  have hend : (config.numBatches : ℕ) + 1 < 2 ^ 64 := by
    have hlimit : maxSize SyntheticBatchBundle.sizeof + 1 < 2 ^ 64 := by decide
    omega
  rw [generateSession_eq, hgenesis]
  refine Finishes.bind (.ok (P := fun l => l = ledger) rfl) ?_
  rintro _ rfl
  refine (reserve_finishes fun h => absurd h (not_lt.mpr hbatches)).bind fun _ _ => ?_
  refine (drawBatches_finishes hconfig hpos ⟨config.seed⟩ hend).bind fun d hd => .ok ⟨?_, fun htotal => ?_⟩
  all_goals have hcount : d.batches.length = config.numBatches := by have := hd.count; omega
  · rw [totalOrders, List.length_flatMap, ← hcount]
    have hle : ∀ n ∈ (d.batches.map fun b => b.batch.orders.length : List ℕ),
        n ≤ (max config.minOrdersPerBatch config.maxOrdersPerBatch : U64) := by
      intro n hn
      obtain ⟨b, hb, rfl⟩ := List.mem_map.mp hn
      exact (hd.bundle b hb).count_le
    have hsum := List.sum_le_card_nsmul _ _ hle
    rwa [List.length_map, smul_eq_mul] at hsum
  have hids : (d.batches.flatMap fun b => b.batch.orders.map (·.id)).Nodup := by
    rw [hd.ids]
    exact nodup_idsFrom (by rw [Nat.add_comm]; exact htotal)
  refine ⟨?_, hids, fun b hb => (hd.bundle b hb).wellFormed ?_ hledger⟩
  · rw [← hcount]
    exact hd.batchIds
  · exact (List.nodup_flatMap.mp hids).1 b hb

/-- More batches than a vector holds are not begun. -/
theorem generateSession_eq_error (haccs : (config.numAccounts : ℕ) + 1 < 2 ^ 64)
    (hbatches : maxSize SyntheticBatchBundle.sizeof < config.numBatches) :
    generateSession config = .error .lengthError := by
  obtain ⟨ledger, hgenesis, -⟩ := exists_genesisLedger config (numAccs_end.mpr haccs)
  rw [generateSession_eq, hgenesis, reserve, if_pos hbatches]
  rfl

/-- Nor is the first batch, if its preimages are more than a vector holds. -/
theorem generateSession_eq_error_of_orders (haccs : (config.numAccounts : ℕ) + 1 < 2 ^ 64)
    (hbatches : 1 ≤ config.numBatches) (hle : config.maxOrdersPerBatch ≤ config.minOrdersPerBatch)
    (horders : maxSize Order.sizeof < config.minOrdersPerBatch) :
    generateSession config = .error .lengthError := by
  obtain ⟨ledger, hgenesis, -⟩ := exists_genesisLedger config (numAccs_end.mpr haccs)
  by_cases hlimit : maxSize SyntheticBatchBundle.sizeof < config.numBatches
  · exact generateSession_eq_error haccs hlimit
  have hdraw : drawBatch config (max config.numAccounts 2) 1 ⟨⟨config.seed⟩, 1, []⟩ =
      .error .lengthError := by
    unfold drawBatch genRangeU64
    rw [if_pos hle]
    show (reserve Order.sizeof config.minOrdersPerBatch >>= _) = _
    rw [reserve, if_pos horders]
    rfl
  rw [generateSession_eq, hgenesis, reserve, if_neg hlimit, forUpTo_of_error hbatches hdraw]
  rfl

/-- A session comes out well formed, or a vector would have to hold more than it can: all batches, or
the preimages of one. -/
theorem generateSession_wellFormed (config : SyntheticFlowConfig) (hconfig : Admissible config)
    (haccs : (config.numAccounts : ℕ) + 1 < 2 ^ 64) :
    (∃ session, generateSession config = .ok session ∧
      (config.numBatches : ℕ) ≤ maxSize SyntheticBatchBundle.sizeof ∧
      (totalOrders session < 2 ^ 64 → WellFormed config session)) ∨
    generateSession config = .error .lengthError ∧
      (maxSize SyntheticBatchBundle.sizeof < config.numBatches ∨
        maxSize SaltedOrderPreimage.sizeof <
          (max config.minOrdersPerBatch config.maxOrdersPerBatch : U64)) := by
  by_cases hbatches : maxSize SyntheticBatchBundle.sizeof < config.numBatches
  · exact Or.inr ⟨generateSession_eq_error haccs hbatches, Or.inl hbatches⟩
  have hrun := generateSession_finishes hconfig haccs (not_lt.mp hbatches)
  cases hresult : generateSession config with
  | ok session =>
    rw [hresult] at hrun
    cases hrun with
    | ok h => exact Or.inl ⟨session, rfl, not_lt.mp hbatches, h.2⟩
  | error e =>
    rw [hresult] at hrun
    cases hrun with
    | error h => exact Or.inr ⟨by rw [h.1], Or.inr h.2⟩

end Session

/-- The default configuration. -/
theorem generateSession_wellFormed_default :
    ∃ session, @generateSession .stable {} = .ok session ∧ @WellFormed .stable {} session := by
  have hconfig : Admissible {} := ⟨by decide, by decide, by decide, by decide⟩
  have hfinishes := @generateSession_finishes .stable {} hconfig (by decide) (by decide)
  rcases @generateSession_wellFormed .stable {} hconfig (by decide) with ⟨session, hrun, -, hwell⟩ | h
  · rw [hrun] at hfinishes
    cases hfinishes with
    | ok h => exact ⟨session, hrun, hwell (h.1.trans_lt (by decide))⟩
  · exact absurd h.2 (by decide)

/-- A quintillion batches without orders. -/
def manyBatches : SyntheticFlowConfig :=
  { numBatches := 1000000000000000000, minOrdersPerBatch := 0, maxOrdersPerBatch := 0 }

/-- One batch of a quintillion orders. -/
def manyOrders : SyntheticFlowConfig :=
  { numBatches := 1, minOrdersPerBatch := 1000000000000000000,
    maxOrdersPerBatch := 1000000000000000000 }

/-- Vectors that cannot be reserved: there is no session. -/
theorem generateSession_throws :
    (Admissible manyBatches ∧ @generateSession .stable manyBatches = .error .lengthError ∧
      ¬ ∃ session, @generateSession .stable manyBatches = .ok session ∧
        @WellFormed .stable manyBatches session) ∧
    Admissible manyOrders ∧ @generateSession .stable manyOrders = .error .lengthError ∧
      ¬ ∃ session, @generateSession .stable manyOrders = .ok session ∧
        @WellFormed .stable manyOrders session := by
  have hbatches : @generateSession .stable manyBatches = .error .lengthError :=
    @generateSession_eq_error .stable manyBatches (by decide) (by decide)
  have horders : @generateSession .stable manyOrders = .error .lengthError :=
    @generateSession_eq_error_of_orders .stable manyOrders (by decide) (by decide) (by decide) (by decide)
  refine ⟨⟨⟨by decide, by decide, by decide, by decide⟩, hbatches, ?_⟩,
    ⟨by decide, by decide, by decide, by decide⟩, horders, ?_⟩
  · rintro ⟨session, hrun, -⟩
    cases hbatches.symm.trans hrun
  · rintro ⟨session, hrun, -⟩
    cases horders.symm.trans hrun

end SyntheticOrderFlowSimulator

end FairCross
