import FairCross.Cli.Fixtures
import FairCross.Cli.Proofs.RenderProofs

/-!
# Fixtures are read as they are written

A fixture is a document with an object for every account and every order. The loaders return what such a
document describes, exactly when its numbers can be read and `Batch::create` accepts its batches.
-/

namespace FairCross

namespace Json

open JsonTree

/-! ## Accessors on documents -/

/-- In a list without repeated keys a search by key finds the entry. -/
theorem find?_of_nodup {α : Type} {o : List (String × α)} (hnd : (o.map (·.1)).Nodup)
    {e : String × α} (he : e ∈ o) : o.find? (fun x => x.1 = e.1) = some e := by
  obtain ⟨e', he'⟩ := Option.isSome_iff_exists.mp
    (List.find?_isSome (p := fun x => decide (x.1 = e.1)).mpr ⟨e, he, by simp⟩)
  have hkey : e'.1 = e.1 := by simpa using List.find?_some he'
  rw [he', List.inj_on_of_nodup_map hnd (List.mem_of_find?_eq_some he') he hkey]

theorem at_ofTree {fields : List (String × JsonTree)} (hnd : (fields.map (·.1)).Nodup) {key : String}
    {j : JsonTree} (h : (key, j) ∈ fields) : (ofTree (.obj fields)).at key = .ok (ofTree j) := by
  have hperm : (ofFields [] fields).Perm ([] ++ fields.map fun f => (f.1, ofTree f.2)) :=
    ofFields_perm (by simpa using hnd)
  rw [List.nil_append] at hperm
  have hkeys : ((ofFields [] fields).map (·.1)).Nodup := by
    rw [(hperm.map (·.1)).nodup_iff, List.map_map]
    exact hnd
  have hmem : (key, ofTree j) ∈ ofFields [] fields :=
    hperm.mem_iff.mpr (List.mem_map.mpr ⟨_, h, rfl⟩)
  rw [ofTree, Value.at, find?_of_nodup hkeys hmem]

@[simp] theorem asU64_ofTree (n : U64) : (ofTree (.num n)).asU64 = .ok n := by
  rw [ofTree, Value.asU64, if_neg (by omega), Int.toNat_natCast, toU64_coe]

@[simp] theorem asString_ofTree (s : String) : (ofTree (.str s)).asString = .ok s := by
  rw [ofTree, Value.asString]

@[simp] theorem asArray_ofTree (items : List JsonTree) :
    (ofTree (.arr items)).asArray = .ok (items.map ofTree) := by
  rw [ofTree, ofItems_eq, Value.asArray]

/-- The entries of an object, in some order. -/
theorem exists_asObject {fields : List (String × JsonTree)} (hnd : (fields.map (·.1)).Nodup) :
    ∃ o, (ofTree (.obj fields)).asObject = .ok o ∧ o.Perm (fields.map fun f => (f.1, ofTree f.2)) := by
  have hperm : (ofFields [] fields).Perm ([] ++ fields.map fun f => (f.1, ofTree f.2)) :=
    ofFields_perm (by simpa using hnd)
  rw [List.nil_append] at hperm
  exact ⟨_, by rw [ofTree, Value.asObject], hperm⟩

/-- A number that was written as a key is read back. -/
theorem stoull_toString (n : U64) : stoull (toString (n : ℕ)).toList = .ok n := by
  have htext : (toString (n : ℕ)).toList = Nat.toDigits 10 n := by
    show (Nat.repr n).toList = _
    rw [Nat.repr, String.toList_ofList]
  have hdigits : ∀ c ∈ Nat.toDigits 10 (n : ℕ), c.isDigit = true := fun c hc =>
    Nat.isDigit_of_mem_toDigits (by decide) le_rfl hc
  have hunsigned : stoull (Nat.toDigits 10 n) = toUnsignedLongLong false (Nat.toDigits 10 n) := by
    have hwhile : (Nat.toDigits 10 (n : ℕ)).takeWhile Char.isDigit = Nat.toDigits 10 n :=
      List.takeWhile_eq_self_iff.mpr hdigits
    obtain ⟨c, t, h, hc⟩ := digits_cons n
    rw [h] at hwhile ⊢
    obtain ⟨d, hd, rfl⟩ := Decimal.exists_digitChar hc
    unfold stoull
    interval_cases d <;> exact congrArg (toUnsignedLongLong false) hwhile
  have hval : Decimal.value (Nat.toDigits 10 (n : ℕ)) = n := Decimal.value_toDigits n
  rw [htext, hunsigned, toUnsignedLongLong, if_neg Nat.toDigits_ne_nil, hval]
  have hlt : ¬ (n : ℕ) ≥ 2 ^ 64 := not_le.mpr n.isLt
  rw [if_neg hlt, if_neg (by decide), toU64_coe]

end Json

namespace Cli

open Json JsonTree CountedLoop

/-! ## The document of a fixture -/

/-- What a fixture says of an account. -/
structure AccountFixture where
  id : AccountId
  cash : U64
  inventory : SortedMap InstrumentId Qty

/-- The account that is described: a fixture has no salts. -/
def AccountFixture.state (a : AccountFixture) : AccountState :=
  { id := a.id, cash := ⟨Fin.ofNat _ a.cash⟩, inventory := a.inventory, commitmentSalt := .fill 0 }

def accountFixtureJson (a : AccountFixture) : JsonTree :=
  .obj [("account_id", .num a.id.raw), ("cash", .num a.cash),
    ("inventory", .obj (a.inventory.entries.map inventoryJson))]

/-- What a fixture says of a batch, its orders in any order. Each of them buys or sells: the text of a
fixture has no other side. -/
structure BatchListing where
  batchId : BatchId
  instrument : InstrumentId
  orders : List Order
  sided : ∀ o ∈ orders, o.side = .buy ∨ o.side = .sell

/-- The batch that is described. -/
def BatchListing.create [StdSort] (b : BatchListing) : Result Batch :=
  Batch.create b.batchId b.instrument b.orders

def batchJson (b : BatchListing) : JsonTree :=
  .obj [("batch_id", .num b.batchId.raw), ("instrument", .num b.instrument.raw),
    ("orders", .arr (b.orders.map orderJson))]

def batchFixtureJson (accounts : List AccountFixture) (batch : BatchListing) : JsonTree :=
  .obj [("pre_state", .arr (accounts.map accountFixtureJson)), ("batch", batchJson batch)]

def sessionManifestJson (accounts : List AccountFixture) (batches : List BatchListing) : JsonTree :=
  .obj [("genesis_ledger", .arr (accounts.map accountFixtureJson)),
    ("batches", .arr (batches.map batchJson))]

/-- The ledger of the accounts. -/
def ledgerOf (accounts : List AccountFixture) : Ledger :=
  accounts.foldl (fun ledger a => ledger.insertAccount a.state) .empty

/-! ## Orders and batches -/

theorem ok_bind {ε α β : Type} (a : α) (f : α → Except ε β) : (Except.ok a >>= f) = f a := rfl

theorem mapM_eq_ok_iff {ε α β : Type} {f : α → Except ε β} {l : List α} {bs : List β} :
    l.mapM f = .ok bs ↔ List.Forall₂ (fun a b => f a = .ok b) l bs := by
  induction l generalizing bs with
  | nil => simp [pure, Except.pure, eq_comm]
  | cons a l ih =>
    simp only [List.mapM_cons, bind_eq_ok, ih, List.forall₂_cons_left_iff]
    constructor
    · rintro ⟨b, hb, bs', hbs', h⟩
      exact ⟨b, bs', hb, hbs', (Except.ok.inj h).symm⟩
    · rintro ⟨b, bs', hb, hbs', rfl⟩
      exact ⟨b, hb, bs', hbs', rfl⟩

@[simp] theorem orThrow_eq_ok {α : Type} {r : Result α} {a : α} : orThrow r = .ok a ↔ r = .ok a := by
  cases r <;> simp [orThrow]

theorem sideFromString_sideName {s : Side} (h : s = .buy ∨ s = .sell) :
    sideFromString (sideName s) = .ok s := by
  rcases h with rfl | rfl <;> decide

/-- An order is read back unless its price or quantity is zero. -/
theorem orderFromJson_eq_ok {o o' : Order} (h : o.side = .buy ∨ o.side = .sell) :
    orderFromJson (ofTree (orderJson o)) = .ok o' ↔ (o.price.raw ≠ 0 ∧ o.qty.raw ≠ 0) ∧ o = o' := by
  have hnd : ([("id", JsonTree.num o.id.raw), ("account", .num o.account.raw),
      ("instrument", .num o.instrument.raw), ("side", .str (sideName o.side)),
      ("price", .num o.price.raw), ("qty", .num o.qty.raw), ("seq", .num o.seq)].map (·.1)).Nodup := by
    simp
  have hprice : (ofTree (orderJson o)).at "price" = .ok (ofTree (.num o.price.raw)) :=
    at_ofTree hnd (by simp)
  have hqty : (ofTree (orderJson o)).at "qty" = .ok (ofTree (.num o.qty.raw)) :=
    at_ofTree hnd (by simp)
  have hid : (ofTree (orderJson o)).at "id" = .ok (ofTree (.num o.id.raw)) :=
    at_ofTree hnd (by simp)
  have haccount : (ofTree (orderJson o)).at "account" = .ok (ofTree (.num o.account.raw)) :=
    at_ofTree hnd (by simp)
  have hinstrument : (ofTree (orderJson o)).at "instrument" = .ok (ofTree (.num o.instrument.raw)) :=
    at_ofTree hnd (by simp)
  have hside : (ofTree (orderJson o)).at "side" = .ok (ofTree (.str (sideName o.side))) :=
    at_ofTree hnd (by simp)
  have hseq : (ofTree (orderJson o)).at "seq" = .ok (ofTree (.num o.seq)) := at_ofTree hnd (by simp)
  have hread : orderFromJson (ofTree (orderJson o)) = (do
      let price ← orThrow (Price.create o.price.raw)
      let qty ← orThrow (Qty.create o.qty.raw)
      pure { o with price, qty }) := by
    simp only [orderFromJson, hprice, hqty, hid, haccount, hinstrument, hside, hseq, ok_bind,
      asU64_ofTree, asString_ofTree, sideFromString_sideName h]
  rw [hread]
  simp only [bind_eq_ok, orThrow_eq_ok, Price.create, Qty.create]
  constructor
  · rintro ⟨price, hp, qty, hq, h⟩
    split_ifs at hp with hp0
    split_ifs at hq with hq0
    obtain rfl := Except.ok.inj hp
    obtain rfl := Except.ok.inj hq
    exact ⟨⟨hp0, hq0⟩, Except.ok.inj h⟩
  · rintro ⟨⟨hp0, hq0⟩, rfl⟩
    exact ⟨_, if_neg hp0, _, if_neg hq0, rfl⟩

/-- The loop over the orders keeps their order. -/
theorem mapM_orderFromJson_eq_ok {orders orders' : List Order}
    (h : ∀ o ∈ orders, o.side = .buy ∨ o.side = .sell) :
    (orders.map (ofTree ∘ orderJson)).mapM orderFromJson = .ok orders' ↔
      (∀ o ∈ orders, o.price.raw ≠ 0 ∧ o.qty.raw ≠ 0) ∧ orders = orders' := by
  have hread : (orders.map (ofTree ∘ orderJson)).mapM orderFromJson = .ok orders' ↔
      List.Forall₂ (fun o o' => (o.price.raw ≠ 0 ∧ o.qty.raw ≠ 0) ∧ o = o') orders orders' := by
    rw [mapM_eq_ok_iff, List.forall₂_map_left_iff]
    induction orders generalizing orders' with
    | nil => simp
    | cons o orders ih =>
      obtain ⟨ho, hrest⟩ := List.forall_mem_cons.mp h
      simp only [List.forall₂_cons_left_iff, ih hrest]
      simp only [Function.comp_apply, orderFromJson_eq_ok ho]
  rw [hread, List.forall₂_and_left, List.forall₂_eq_eq_eq]

section Loaders

variable [StdSort]

/-- A batch is read exactly as `Batch::create` accepts it. -/
theorem batchFromJson_eq_ok {b : BatchListing} {b' : Batch} :
    batchFromJson (ofTree (batchJson b)) = .ok b' ↔ b.create = .ok b' := by
  have hnd : ([("batch_id", JsonTree.num b.batchId.raw), ("instrument", .num b.instrument.raw),
      ("orders", .arr (b.orders.map orderJson))].map (·.1)).Nodup := by simp
  have hid : (ofTree (batchJson b)).at "batch_id" = .ok (ofTree (.num b.batchId.raw)) :=
    at_ofTree hnd (by simp)
  have hinstrument : (ofTree (batchJson b)).at "instrument" = .ok (ofTree (.num b.instrument.raw)) :=
    at_ofTree hnd (by simp)
  have horders : (ofTree (batchJson b)).at "orders" = .ok (ofTree (.arr (b.orders.map orderJson))) :=
    at_ofTree hnd (by simp)
  have hread : batchFromJson (ofTree (batchJson b)) = (do
      let orders ← (b.orders.map (ofTree ∘ orderJson)).mapM orderFromJson
      orThrow (Batch.create b.batchId b.instrument orders)) := by
    simp only [batchFromJson, hid, hinstrument, horders, ok_bind, asU64_ofTree, asArray_ofTree,
      List.map_map]
  rw [hread]
  simp only [bind_eq_ok, mapM_orderFromJson_eq_ok b.sided, orThrow_eq_ok]
  constructor
  · rintro ⟨orders, ⟨-, rfl⟩, h⟩
    exact h
  · intro h
    have hacceptable := (Batch.create_eq_ok.mp h).1
    refine ⟨b.orders, ⟨fun o ho => ?_, rfl⟩, h⟩
    obtain ⟨-, -, hprice, hqty⟩ := hacceptable.order o ho
    exact ⟨fun h0 => by simp [h0] at hprice, fun h0 => by simp [h0] at hqty⟩

end Loaders

/-! ## Accounts -/

/-- The inventory of an account is filled entry by entry. -/
theorem foldlM_creditEntry {l : List (InstrumentId × Qty)} {acc : AccountState}
    (hnd : (l.map (·.1)).Nodup) (hnew : ∀ e ∈ l, acc.inventory.find e.1 = none) :
    (l.map fun e => ((inventoryJson e).1, ofTree (inventoryJson e).2)).foldlM creditEntry acc =
      .ok { acc with inventory := l.foldl (fun m e => m.insert e.1 e.2) acc.inventory } := by
  induction l generalizing acc with
  | nil => rfl
  | cons e l ih =>
    obtain ⟨hfresh, hnd'⟩ := List.nodup_cons.mp hnd
    have hcredit : acc.creditInventory e.1 e.2 =
        .ok { acc with inventory := acc.inventory.insert e.1 e.2 } := by
      refine AccountState.creditInventory_eq_ok.mpr ⟨e.2, ?_, rfl⟩
      rw [AccountState.inventoryOf, hnew e (List.mem_cons_self ..), Option.getD_none, Qty.zero_raw,
        Nat.zero_add]
    have hentry : creditEntry acc ((inventoryJson e).1, ofTree (inventoryJson e).2) =
        .ok { acc with inventory := acc.inventory.insert e.1 e.2 } := by
      simp only [creditEntry, inventoryJson, stoull_toString, asU64_ofTree, ok_bind, hcredit]
    rw [List.map_cons, List.foldlM_cons, hentry]
    refine (ih hnd' fun e' he' => ?_).trans rfl
    have hne : e.1 ≠ e'.1 := fun heq => hfresh (List.mem_map.mpr ⟨e', he', heq.symm⟩)
    exact (SortedMap.find_insert_ne _ _ hne).trans (hnew e' (List.mem_cons_of_mem _ he'))

/-- Filling a map with the entries of another one, in any order, gives that one. -/
theorem foldl_insert_entries {m : SortedMap InstrumentId Qty} {l : List (InstrumentId × Qty)}
    (hperm : l.Perm m.entries) : l.foldl (fun m e => m.insert e.1 e.2) .empty = m := by
  have hnd : (l.map (·.1)).Nodup := ((hperm.map _).nodup_iff).mpr m.keys_nodup
  refine SortedMap.ext_find fun k => ?_
  cases hk : m.find k with
  | none =>
    rw [SortedMap.find_foldl_insert_of_notMem (fun e : InstrumentId × Qty => e.1) fun e => e.2]
    · rfl
    · rintro ⟨k', q⟩ he rfl
      rw [SortedMap.mem_entries.mp (hperm.mem_iff.mp he)] at hk
      cases hk
  | some q =>
    exact SortedMap.find_foldl_insert (fun e : InstrumentId × Qty => e.1) (fun e => e.2) .empty hnd
      (hperm.mem_iff.mpr (SortedMap.mem_entries.mpr hk))

theorem insertFromJson_ofTree (ledger : Ledger) (a : AccountFixture) :
    insertFromJson ledger (ofTree (accountFixtureJson a)) = .ok (ledger.insertAccount a.state) := by
  have hnd : ([("account_id", JsonTree.num a.id.raw), ("cash", .num a.cash),
      ("inventory", .obj (a.inventory.entries.map inventoryJson))].map (·.1)).Nodup := by simp
  have hid : (ofTree (accountFixtureJson a)).at "account_id" = .ok (ofTree (.num a.id.raw)) :=
    at_ofTree hnd (by simp)
  have hcash : (ofTree (accountFixtureJson a)).at "cash" = .ok (ofTree (.num a.cash)) :=
    at_ofTree hnd (by simp)
  have hinventory : (ofTree (accountFixtureJson a)).at "inventory" =
      .ok (ofTree (.obj (a.inventory.entries.map inventoryJson))) := at_ofTree hnd (by simp)
  have hkeys : ((a.inventory.entries.map inventoryJson).map (·.1)).Nodup :=
    nodup_toString _ (fun _ _ h => InstrumentId.ext (Fin.ext h)) fun _ => rfl
  obtain ⟨o, ho, hperm⟩ := exists_asObject hkeys
  rw [List.map_map] at hperm
  -- the reader keeps its map in the order of the texts, not of the numbers
  obtain ⟨l, rfl, hl⟩ := (congrFun₂ (List.eq_map_comp_perm _) o a.inventory.entries).mpr hperm
  have hfold := @foldlM_creditEntry l (.new a.id ⟨Fin.ofNat _ a.cash⟩)
    (((hl.map _).nodup_iff).mpr a.inventory.keys_nodup) fun _ _ => rfl
  rw [show (AccountState.new a.id _).inventory = .empty from rfl, foldl_insert_entries hl] at hfold
  have hread : insertFromJson ledger (ofTree (accountFixtureJson a)) = (do
      let state ← (l.map fun e => ((inventoryJson e).1, ofTree (inventoryJson e).2)).foldlM creditEntry
        (.new a.id ⟨Fin.ofNat _ a.cash⟩)
      pure (ledger.insertAccount state)) := by
    simp only [insertFromJson, hid, hcash, hinventory, ho, ok_bind, asU64_ofTree]
    rfl
  rw [hread, hfold]
  rfl

theorem ledgerFromJson_ofTree (accounts : List AccountFixture) :
    ledgerFromJson (ofTree (.arr (accounts.map accountFixtureJson))) = .ok (ledgerOf accounts) := by
  have hfold : ∀ ledger : Ledger, ((accounts.map accountFixtureJson).map ofTree).foldlM insertFromJson
      ledger = .ok (accounts.foldl (fun ledger a => ledger.insertAccount a.state) ledger) := by
    induction accounts with
    | nil => exact fun _ => rfl
    | cons a accounts ih =>
      intro ledger
      rw [List.map_cons, List.map_cons, List.foldlM_cons, insertFromJson_ofTree]
      exact ih _
  unfold ledgerFromJson
  rw [asArray_ofTree]
  exact hfold .empty

/-- The last account listed under an id is the one in the ledger. -/
theorem getAccount_ledgerOf (accounts : List AccountFixture) (id : AccountId) :
    (ledgerOf accounts).getAccount id =
      (accounts.reverse.find? fun a => a.id = id).map AccountFixture.state := by
  induction accounts using List.reverseRecOn with
  | nil => rfl
  | append_singleton accounts a ih =>
    have hlast : ledgerOf (accounts ++ [a]) = (ledgerOf accounts).insertAccount a.state :=
      List.foldl_append ..
    rw [hlast, List.reverse_append, List.reverse_singleton, List.singleton_append, List.find?_cons]
    refine (SortedMap.find_insert (ledgerOf accounts).accounts a.id id a.state).trans ?_
    by_cases hid : a.id = id
    · simp [hid]
    · rw [if_neg hid, decide_eq_false hid]
      exact ih

theorem eq_ledgerOf_iff {ledger : Ledger} {accounts : List AccountFixture} :
    ledger = ledgerOf accounts ↔ ∀ id, ledger.getAccount id =
      (accounts.reverse.find? fun a => a.id = id).map AccountFixture.state := by
  constructor
  · rintro rfl
    exact getAccount_ledgerOf accounts
  · intro h
    exact congrArg Ledger.mk (SortedMap.ext_find fun id =>
      (h id).trans (getAccount_ledgerOf accounts id).symm)

/-! ## Whole documents -/

/-- The numbers of a batch are below 2^63. -/
structure BatchListing.FitsInt64 (b : BatchListing) : Prop where
  batchId : (b.batchId.raw : ℕ) < 2 ^ 63
  instrument : (b.instrument.raw : ℕ) < 2 ^ 63
  orders : ∀ o ∈ b.orders, (o.id.raw : ℕ) < 2 ^ 63 ∧ (o.account.raw : ℕ) < 2 ^ 63 ∧
    (o.instrument.raw : ℕ) < 2 ^ 63 ∧ (o.price.raw : ℕ) < 2 ^ 63 ∧ (o.qty.raw : ℕ) < 2 ^ 63 ∧
    (o.seq : ℕ) < 2 ^ 63

/-- The numbers of an account are below 2^63. An instrument is a key, and has no such bound. -/
structure AccountFixture.FitsInt64 (a : AccountFixture) : Prop where
  id : (a.id.raw : ℕ) < 2 ^ 63
  cash : (a.cash : ℕ) < 2 ^ 63
  inventory : ∀ e ∈ a.inventory.entries, (e.2.raw : ℕ) < 2 ^ 63

theorem fitsLongLong_batchJson {b : BatchListing} : FitsLongLong (batchJson b) ↔ b.FitsInt64 := by
  simp only [batchJson, orderJson, allNumbers_num, allNumbers_str, allNumbers_arr_map,
    allNumbers_obj_nil, allNumbers_obj_cons, true_and, and_true]
  constructor
  · rintro ⟨h1, h2, h3⟩
    exact ⟨h1, h2, h3⟩
  · intro h
    exact ⟨h.batchId, h.instrument, h.orders⟩

theorem fitsLongLong_accountFixtureJson {a : AccountFixture} :
    FitsLongLong (accountFixtureJson a) ↔ a.FitsInt64 := by
  simp only [accountFixtureJson, inventoryJson, allNumbers_num, allNumbers_obj_map,
    allNumbers_obj_nil, allNumbers_obj_cons, and_true]
  constructor
  · rintro ⟨h1, h2, h3⟩
    exact ⟨h1, h2, h3⟩
  · intro h
    exact ⟨h.id, h.cash, h.inventory⟩

/-- The text of a document is loaded exactly when its numbers can be read and the loader takes it. -/
theorem load_text {α : Type} {load : Value → Except Exception α} {j : JsonTree} {a : α} :
    (parse j.text).map (· >>= load) = some (.ok a) ↔ FitsLongLong j ∧ load (ofTree j) = .ok a := by
  obtain ⟨haccepts, hoverflows⟩ := parse_text j
  by_cases hfits : FitsLongLong j
  · rw [haccepts hfits, Option.map_some, Option.some_inj, ok_bind]
    exact (and_iff_right hfits).symm
  · rw [hoverflows hfits]
    exact iff_of_false (by rintro ⟨⟩) fun h => hfits h.1

section Documents

variable [StdSort]

/-- **Manifests are read as they are written.** The text of a manifest is loaded exactly when every
number in it is below 2^63 and every batch is one that `Batch::create` accepts. What is loaded are
these batches and a ledger with the account that is listed last under an id: its cash, its whole
inventory, and no salt. -/
theorem loadSessionManifest_eq_ok (accounts : List AccountFixture) (batches : List BatchListing)
    (manifest : SessionManifest) :
    loadSessionManifest (sessionManifestJson accounts batches).text = some (.ok manifest) ↔
      ((∀ a ∈ accounts, a.FitsInt64) ∧ ∀ b ∈ batches, b.FitsInt64) ∧
      (∀ id, manifest.genesisLedger.getAccount id =
        (accounts.reverse.find? fun a => a.id = id).map AccountFixture.state) ∧
      List.Forall₂ (fun b batch => b.create = .ok batch) batches manifest.batches := by
  have hfits : FitsLongLong (sessionManifestJson accounts batches) ↔
      (∀ a ∈ accounts, a.FitsInt64) ∧ ∀ b ∈ batches, b.FitsInt64 := by
    simp only [sessionManifestJson, allNumbers_arr_map, allNumbers_obj_nil, allNumbers_obj_cons,
      and_true, fitsLongLong_accountFixtureJson, fitsLongLong_batchJson]
  have hnd : ([("genesis_ledger", JsonTree.arr (accounts.map accountFixtureJson)),
      ("batches", .arr (batches.map batchJson))].map (·.1)).Nodup := by simp
  have hledger : (ofTree (sessionManifestJson accounts batches)).at "genesis_ledger" =
      .ok (ofTree (.arr (accounts.map accountFixtureJson))) := at_ofTree hnd (by simp)
  have hbatches : (ofTree (sessionManifestJson accounts batches)).at "batches" =
      .ok (ofTree (.arr (batches.map batchJson))) := at_ofTree hnd (by simp)
  have hread : ∀ bs, (batches.map (ofTree ∘ batchJson)).mapM batchFromJson = .ok bs ↔
      List.Forall₂ (fun b batch => b.create = .ok batch) batches bs := by
    intro bs
    rw [mapM_eq_ok_iff, List.forall₂_map_left_iff]
    simp only [Function.comp_apply, batchFromJson_eq_ok]
  rw [loadSessionManifest, load_text, hfits, ← eq_ledgerOf_iff]
  refine and_congr_right' ?_
  simp only [sessionManifestFromJson, hledger, hbatches, ok_bind, ledgerFromJson_ofTree,
    asArray_ofTree, List.map_map, bind_eq_ok, hread]
  constructor
  · rintro ⟨bs, hbs, h⟩
    obtain rfl := Except.ok.inj h
    exact ⟨rfl, hbs⟩
  · rintro ⟨hl, hbs⟩
    exact ⟨_, hbs, by rw [← hl]; rfl⟩

/-- The same for the fixture of one batch. -/
theorem loadBatchFixture_eq_ok (accounts : List AccountFixture) (listing : BatchListing)
    (fixture : BatchFixture) :
    loadBatchFixture (batchFixtureJson accounts listing).text = some (.ok fixture) ↔
      ((∀ a ∈ accounts, a.FitsInt64) ∧ listing.FitsInt64) ∧
      (∀ id, fixture.preState.getAccount id =
        (accounts.reverse.find? fun a => a.id = id).map AccountFixture.state) ∧
      listing.create = .ok fixture.batch := by
  have hfits : FitsLongLong (batchFixtureJson accounts listing) ↔
      (∀ a ∈ accounts, a.FitsInt64) ∧ listing.FitsInt64 := by
    simp only [batchFixtureJson, allNumbers_arr_map, allNumbers_obj_nil, allNumbers_obj_cons,
      and_true, fitsLongLong_accountFixtureJson, fitsLongLong_batchJson]
  have hnd : ([("pre_state", JsonTree.arr (accounts.map accountFixtureJson)),
      ("batch", batchJson listing)].map (·.1)).Nodup := by simp
  have hledger : (ofTree (batchFixtureJson accounts listing)).at "pre_state" =
      .ok (ofTree (.arr (accounts.map accountFixtureJson))) := at_ofTree hnd (by simp)
  have hbatch : (ofTree (batchFixtureJson accounts listing)).at "batch" =
      .ok (ofTree (batchJson listing)) := at_ofTree hnd (by simp)
  rw [loadBatchFixture, load_text, hfits, ← eq_ledgerOf_iff]
  refine and_congr_right' ?_
  simp only [batchFixtureFromJson, hledger, hbatch, ok_bind, ledgerFromJson_ofTree,
    bind_eq_ok, batchFromJson_eq_ok]
  constructor
  · rintro ⟨batch, hb, h⟩
    obtain rfl := Except.ok.inj h
    exact ⟨rfl, hb⟩
  · rintro ⟨hl, hb⟩
    exact ⟨_, hb, by rw [← hl]; rfl⟩

end Documents

end Cli

end FairCross
