import Mathlib

/-!
# Maps kept as sorted association lists

An ordered map is the list of its entries in strictly ascending key order. The order makes the
representation canonical: two maps with the same lookups are equal (`SortedMap.ext_find`), and
iterating over a map is iterating over its `entries`.
-/

/-- An ordered map from `κ` to `ν`: its entries, with strictly ascending keys. -/
structure SortedMap (κ ν : Type) [LinearOrder κ] where
  entries : List (κ × ν)
  sorted : entries.Pairwise fun a b => a.1 < b.1

namespace SortedMap

variable {κ ν : Type} [LinearOrder κ]

/-! ## Association lists -/

/-- The value stored under `k`. -/
def lookup (k : κ) : List (κ × ν) → Option ν
  | [] => none
  | e :: es => if e.1 = k then some e.2 else lookup k es

/-- Store `v` under `k`, replacing the value stored there, at the place that keeps keys sorted. -/
def put (k : κ) (v : ν) : List (κ × ν) → List (κ × ν)
  | [] => [(k, v)]
  | e :: es => if k < e.1 then (k, v) :: e :: es else if e.1 = k then (k, v) :: es else e :: put k v es

theorem mem_put {k : κ} {v : ν} {es : List (κ × ν)} {e : κ × ν} (h : e ∈ put k v es) :
    e = (k, v) ∨ e ∈ es := by
  induction es with
  | nil => left; simpa [put] using h
  | cons e' es ih =>
    unfold put at h
    split_ifs at h with h1 h2
    · rcases List.mem_cons.mp h with h | h
      · exact Or.inl h
      · exact Or.inr h
    · rcases List.mem_cons.mp h with h | h
      · exact Or.inl h
      · exact Or.inr (List.mem_cons_of_mem _ h)
    · rcases List.mem_cons.mp h with h | h
      · exact Or.inr (h ▸ List.mem_cons_self ..)
      · rcases ih h with h | h
        · exact Or.inl h
        · exact Or.inr (List.mem_cons_of_mem _ h)

theorem put_sorted (k : κ) (v : ν) {es : List (κ × ν)} (h : es.Pairwise fun a b => a.1 < b.1) :
    (put k v es).Pairwise fun a b => a.1 < b.1 := by
  induction es with
  | nil => simp [put]
  | cons e es ih =>
    obtain ⟨h1, h2⟩ := List.pairwise_cons.mp h
    unfold put
    split_ifs with hk hk'
    · refine List.pairwise_cons.mpr ⟨fun e' he' => ?_, h⟩
      rcases List.mem_cons.mp he' with rfl | he'
      · exact hk
      · exact lt_trans hk (h1 e' he')
    · exact List.pairwise_cons.mpr ⟨fun e' he' => hk' ▸ h1 e' he', h2⟩
    · refine List.pairwise_cons.mpr ⟨fun e' he' => ?_, ih h2⟩
      rcases mem_put he' with rfl | he'
      · exact lt_of_le_of_ne (not_lt.mp hk) hk'
      · exact h1 e' he'

theorem lookup_put (k k' : κ) (v : ν) (es : List (κ × ν)) :
    lookup k' (put k v es) = if k = k' then some v else lookup k' es := by
  induction es with
  | nil => simp [put, lookup]
  | cons e es ih =>
    unfold put
    split_ifs with h1 h2
    · subst k'; simp [lookup]
    · simp [lookup, *]
    all_goals grind [lookup]

theorem lookup_eq_some {es : List (κ × ν)} (h : es.Pairwise fun a b => a.1 < b.1) {k : κ} {v : ν} :
    lookup k es = some v ↔ (k, v) ∈ es := by
  induction es with
  | nil => simp [lookup]
  | cons e es ih =>
    obtain ⟨h1, h2⟩ := List.pairwise_cons.mp h
    by_cases he : e.1 = k
    · have hk : ∀ v, (k, v) ∉ es := fun v hv => absurd (h1 _ hv) (by simp [he])
      simp only [lookup, he, if_true, Option.some.injEq, List.mem_cons, hk, or_false]
      constructor
      · rintro rfl; rw [← he]
      · intro hv; rw [← hv]
    · simp only [lookup, he, if_false, ih h2, List.mem_cons]
      constructor
      · exact Or.inr
      · rintro (hv | hv)
        · exact absurd (congrArg Prod.fst hv).symm he
        · exact hv

/-! ## The map operations -/

/-- The map without entries. -/
def empty : SortedMap κ ν := ⟨[], List.Pairwise.nil⟩

/-- `find`: the value stored under `k`. -/
def find (m : SortedMap κ ν) (k : κ) : Option ν := lookup k m.entries

/-- `insert_or_assign`: store `v` under `k`. -/
def insert (m : SortedMap κ ν) (k : κ) (v : ν) : SortedMap κ ν :=
  ⟨put k v m.entries, put_sorted k v m.sorted⟩

/-- `erase`: drop the entry under `k`, if there is one. -/
def erase (m : SortedMap κ ν) (k : κ) : SortedMap κ ν :=
  ⟨m.entries.filter fun e => e.1 ≠ k, m.sorted.filter _⟩

/-- `emplace`: store `v` under `k` if nothing is stored there. -/
def emplace (m : SortedMap κ ν) (k : κ) (v : ν) : SortedMap κ ν :=
  if (m.find k).isSome then m else m.insert k v

/-- `begin()->first`: the smallest key. -/
def firstKey (m : SortedMap κ ν) : Option κ := m.entries.head?.map Prod.fst

/-- `rbegin()->first`: the largest key. -/
def lastKey (m : SortedMap κ ν) : Option κ := m.entries.getLast?.map Prod.fst

/-- The number of entries. -/
def size (m : SortedMap κ ν) : Nat := m.entries.length

/-- The keys, ascending. -/
def keys (m : SortedMap κ ν) : List κ := m.entries.map Prod.fst

theorem mem_entries {m : SortedMap κ ν} {k : κ} {v : ν} : (k, v) ∈ m.entries ↔ m.find k = some v :=
  (lookup_eq_some m.sorted).symm

@[simp] theorem find_empty (k : κ) : (empty : SortedMap κ ν).find k = none := rfl

theorem find_insert (m : SortedMap κ ν) (k k' : κ) (v : ν) :
    (m.insert k v).find k' = if k = k' then some v else m.find k' := lookup_put k k' v m.entries

@[simp] theorem find_insert_self (m : SortedMap κ ν) (k : κ) (v : ν) :
    (m.insert k v).find k = some v := by simp [find_insert]

theorem find_insert_ne (m : SortedMap κ ν) {k k' : κ} (v : ν) (h : k ≠ k') :
    (m.insert k v).find k' = m.find k' := by simp [find_insert, h]

theorem find_erase (m : SortedMap κ ν) (k k' : κ) :
    (m.erase k).find k' = if k = k' then none else m.find k' := by
  by_cases h : k = k'
  · subst h
    rw [if_pos rfl, Option.eq_none_iff_forall_ne_some]
    intro v hv
    have := mem_entries.mpr hv
    simp [erase] at this
  · rw [if_neg h]
    ext v
    rw [← mem_entries, ← mem_entries]
    simp [erase, Ne.symm h]

/-- Maps with the same lookups are equal. -/
theorem ext_find {m m' : SortedMap κ ν} (h : ∀ k, m.find k = m'.find k) : m = m' := by
  have hmem : ∀ e, e ∈ m.entries ↔ e ∈ m'.entries := by
    rintro ⟨k, v⟩
    rw [mem_entries, mem_entries, h]
  have hnd : ∀ m : SortedMap κ ν, m.entries.Nodup := fun m =>
    m.sorted.imp fun hab => by rintro rfl; exact lt_irrefl _ hab
  have hp : m.entries.Perm m'.entries := (List.perm_ext_iff_of_nodup (hnd m) (hnd m')).mpr hmem
  have he : m.entries = m'.entries := by
    refine hp.eq_of_pairwise (fun a b _ _ hab hba => ?_) m.sorted m'.sorted
    exact absurd (lt_trans hab hba) (lt_irrefl _)
  cases m; cases m'; simp_all

theorem find_injective : Function.Injective (find : SortedMap κ ν → κ → Option ν) :=
  fun _ _ h => ext_find fun k => congrFun h k

theorem find_insert_eq_update [DecidableEq κ] (m : SortedMap κ ν) (k : κ) (v : ν) :
    (m.insert k v).find = Function.update m.find k (some v) := by
  funext k'
  rw [find_insert]
  split_ifs with h
  · rw [← h, Function.update_self]
  · rw [Function.update_of_ne (Ne.symm h)]

theorem find_erase_eq_update [DecidableEq κ] (m : SortedMap κ ν) (k : κ) :
    (m.erase k).find = Function.update m.find k none := by
  funext k'
  rw [find_erase]
  split_ifs with h
  · rw [← h, Function.update_self]
  · rw [Function.update_of_ne (Ne.symm h)]

theorem emplace_of_none {m : SortedMap κ ν} {k : κ} (h : m.find k = none) (v : ν) :
    m.emplace k v = m.insert k v := by
  simp [emplace, h]

theorem insert_insert (m : SortedMap κ ν) (k : κ) (v v' : ν) :
    (m.insert k v).insert k v' = m.insert k v' := by
  refine ext_find fun k' => ?_
  simp only [find_insert]
  split_ifs <;> rfl

instance [DecidableEq ν] : DecidableEq (SortedMap κ ν) := fun a b =>
  decidable_of_iff (a.entries = b.entries) ⟨fun h => by cases a; cases b; simp_all, fun h => h ▸ rfl⟩

theorem keys_nodup (m : SortedMap κ ν) : m.keys.Nodup := by
  unfold keys
  exact List.pairwise_map.mpr (m.sorted.imp fun h => ne_of_lt h)

theorem mem_keys {m : SortedMap κ ν} {k : κ} : k ∈ m.keys ↔ ∃ v, m.find k = some v := by
  simp [keys, ← mem_entries]

theorem mem_keys_iff_isSome {m : SortedMap κ ν} {k : κ} : k ∈ m.keys ↔ (m.find k).isSome := by
  rw [mem_keys, Option.isSome_iff_exists]

/-- Maps with the same keys are of the same size. -/
theorem size_eq_of_isSome {m m' : SortedMap κ ν}
    (h : ∀ k, (m'.find k).isSome = (m.find k).isSome) : m'.size = m.size := by
  have hkeys : m'.keys.Perm m.keys := by
    refine (List.perm_ext_iff_of_nodup m'.keys_nodup m.keys_nodup).mpr fun k => ?_
    rw [mem_keys_iff_isSome, mem_keys_iff_isSome, h]
  have := hkeys.length_eq
  rwa [keys, keys, List.length_map, List.length_map] at this

theorem isLeast_of_firstKey {m : SortedMap κ ν} {k : κ} (h : m.firstKey = some k) :
    IsLeast {k | (m.find k).isSome} k := by
  obtain ⟨e, he, rfl⟩ := Option.map_eq_some_iff.mp h
  obtain ⟨es, hes⟩ := List.head?_eq_some_iff.mp he
  have hs := m.sorted
  rw [hes] at hs
  constructor
  · rw [Set.mem_ofPred_eq, ← mem_keys_iff_isSome, keys, hes]
    exact List.mem_cons_self ..
  · intro k hk
    rw [Set.mem_ofPred_eq, ← mem_keys_iff_isSome, keys, hes] at hk
    obtain ⟨e', he', rfl⟩ := List.mem_map.mp hk
    rcases List.mem_cons.mp he' with rfl | he'
    · exact le_refl _
    · exact ((List.pairwise_cons.mp hs).1 e' he').le

theorem isGreatest_of_lastKey {m : SortedMap κ ν} {k : κ} (h : m.lastKey = some k) :
    IsGreatest {k | (m.find k).isSome} k := by
  obtain ⟨e, he, rfl⟩ := Option.map_eq_some_iff.mp h
  obtain ⟨es, hes⟩ := List.getLast?_eq_some_iff.mp he
  have hs := m.sorted
  rw [hes] at hs
  constructor
  · rw [Set.mem_ofPred_eq, ← mem_keys_iff_isSome, keys, hes]
    simp
  · intro k hk
    rw [Set.mem_ofPred_eq, ← mem_keys_iff_isSome, keys, hes] at hk
    obtain ⟨e', he', rfl⟩ := List.mem_map.mp hk
    rcases List.mem_append.mp he' with he' | he'
    · exact ((List.pairwise_append.mp hs).2.2 e' he' e (List.mem_singleton_self e)).le
    · rw [List.mem_singleton.mp he']

theorem firstKey_eq_none {m : SortedMap κ ν} : m.firstKey = none ↔ ∀ k, m.find k = none := by
  rw [firstKey, Option.map_eq_none_iff, List.head?_eq_none_iff]
  constructor
  · intro h k
    rw [find, h, lookup]
  · intro h
    refine List.eq_nil_iff_forall_not_mem.mpr fun e he => ?_
    have := mem_entries.mp (show (e.1, e.2) ∈ m.entries from he)
    rw [h] at this
    cases this

theorem lastKey_eq_none {m : SortedMap κ ν} : m.lastKey = none ↔ ∀ k, m.find k = none := by
  rw [← firstKey_eq_none, lastKey, firstKey, Option.map_eq_none_iff, Option.map_eq_none_iff,
    List.getLast?_eq_none_iff, List.head?_eq_none_iff]

/-! ## Maps with other values -/

section MapVal

variable {β : Type}

/-- The map with `f k v` stored under `k` in place of `v`. -/
def mapVal (f : κ → ν → β) (m : SortedMap κ ν) : SortedMap κ β :=
  ⟨m.entries.map fun e => (e.1, f e.1 e.2), List.pairwise_map.mpr m.sorted⟩

theorem find_mapVal (f : κ → ν → β) (m : SortedMap κ ν) (k : κ) :
    (m.mapVal f).find k = (m.find k).map (f k) := by
  ext v
  rw [← mem_entries, Option.map_eq_some_iff]
  constructor
  · intro hv
    obtain ⟨⟨k', v'⟩, he, heq⟩ := List.mem_map.mp hv
    obtain ⟨rfl, rfl⟩ := Prod.mk.inj heq
    exact ⟨v', mem_entries.mp he, rfl⟩
  · rintro ⟨v', hv', rfl⟩
    exact List.mem_map.mpr ⟨(k, v'), mem_entries.mpr hv', rfl⟩

/-- What is read off the entries depends on what is read off the lookups. -/
theorem map_entries_congr {ν' : Type} {f : κ → ν → β} {g : κ → ν' → β} {m : SortedMap κ ν}
    {m' : SortedMap κ ν'} (h : ∀ k, (m.find k).map (f k) = (m'.find k).map (g k)) :
    (m.entries.map fun e => f e.1 e.2) = m'.entries.map fun e => g e.1 e.2 := by
  have hm : m.mapVal f = m'.mapVal g := ext_find fun k => by rw [find_mapVal, find_mapVal, h]
  have hv := congrArg (fun m : SortedMap κ β => m.entries.map Prod.snd) hm
  simpa [mapVal, Function.comp_def] using hv

end MapVal

/-! ## Maps filled by a loop -/

section Fold

variable {α σ : Type} (key : α → κ)

theorem find_foldl_insert_of_notMem (val : α → ν) {l : List α} (m : SortedMap κ ν) {k : κ}
    (hk : ∀ a ∈ l, key a ≠ k) :
    (l.foldl (fun m a => m.insert (key a) (val a)) m).find k = m.find k := by
  induction l generalizing m with
  | nil => rfl
  | cons a l ih =>
    rw [List.foldl_cons, ih _ fun b hb => hk b (List.mem_cons_of_mem _ hb),
      find_insert_ne _ _ (hk a (List.mem_cons_self ..))]

/-- A loop that stores one entry per element, under distinct keys, stores them all. -/
theorem find_foldl_insert (val : α → ν) {l : List α} (m : SortedMap κ ν)
    (hnd : (l.map key).Nodup) {a : α} (ha : a ∈ l) :
    (l.foldl (fun m a => m.insert (key a) (val a)) m).find (key a) = some (val a) := by
  induction l generalizing m with
  | nil => cases ha
  | cons b l ih =>
    obtain ⟨hb, hnd'⟩ := List.nodup_cons.mp hnd
    rcases List.mem_cons.mp ha with rfl | ha
    · rw [List.foldl_cons, find_foldl_insert_of_notMem, find_insert_self]
      exact fun c hc he => hb (List.mem_map.mpr ⟨c, hc, he⟩)
    · exact ih _ hnd' ha

variable (out : σ → α → ν) (next : σ → α → σ)

/-- One round of a loop that stores an entry computed from a state it carries along. -/
def insertCarry (p : SortedMap κ ν × σ) (a : α) : SortedMap κ ν × σ :=
  (p.1.insert (key a) (out p.2 a), next p.2 a)

theorem find_foldl_insertCarry_of_notMem {l : List α} (p : SortedMap κ ν × σ) {k : κ}
    (hk : ∀ a ∈ l, key a ≠ k) : (l.foldl (insertCarry key out next) p).1.find k = p.1.find k := by
  induction l generalizing p with
  | nil => rfl
  | cons a l ih =>
    rw [List.foldl_cons, ih _ fun b hb => hk b (List.mem_cons_of_mem _ hb), insertCarry,
      find_insert_ne _ _ (hk a (List.mem_cons_self ..))]

/-- The entry of `a` is computed from the state the elements before `a` leave. -/
theorem find_foldl_insertCarry [DecidableEq α] {l : List α} (p : SortedMap κ ν × σ)
    (hnd : (l.map key).Nodup) {a : α} (ha : a ∈ l) :
    (l.foldl (insertCarry key out next) p).1.find (key a) =
      some (out ((l.takeWhile (· ≠ a)).foldl next p.2) a) := by
  induction l generalizing p with
  | nil => cases ha
  | cons b l ih =>
    obtain ⟨hb, hnd'⟩ := List.nodup_cons.mp hnd
    by_cases hab : b = a
    · subst hab
      rw [List.foldl_cons, find_foldl_insertCarry_of_notMem, insertCarry, find_insert_self]
      · simp
      · exact fun c hc he => hb (List.mem_map.mpr ⟨c, hc, he⟩)
    · have ha' : a ∈ l := (List.mem_cons.mp ha).resolve_left (Ne.symm hab)
      rw [List.foldl_cons, ih _ hnd' ha', List.takeWhile_cons_of_pos (by simpa using hab)]
      rfl

end Fold

/-! ## Sums over the entries -/

/-- The sum of `f` over the stored values. -/
def sum (m : SortedMap κ ν) (f : ν → ℕ) : ℕ := (m.entries.map fun e => f e.2).sum

/-- A map with the same keys is summed up along the entries of the other. -/
theorem sum_of_isSome {m m' : SortedMap κ ν} (h : ∀ k, (m'.find k).isSome = (m.find k).isSome)
    (f : ν → ℕ) : m'.sum f = (m.entries.map fun e => ((m'.find e.1).map f).getD 0).sum := by
  refine congrArg List.sum (map_entries_congr (f := fun _ v => f v)
    (g := fun k _ => ((m'.find k).map f).getD 0) fun k => ?_)
  have hk := h k
  cases hm : m.find k with
  | none =>
    rw [hm, Option.isSome_none, Option.isSome_eq_false_iff, Option.isNone_iff_eq_none] at hk
    rw [hk]
    rfl
  | some v =>
    rw [hm, Option.isSome_some] at hk
    obtain ⟨v', hv'⟩ := Option.isSome_iff_exists.mp hk
    rw [hv']
    rfl

theorem sum_put (f : ν → ℕ) (k : κ) (v : ν) {es : List (κ × ν)}
    (h : es.Pairwise fun a b => a.1 < b.1) :
    ((put k v es).map fun e => f e.2).sum + ((lookup k es).map f).getD 0 =
      (es.map fun e => f e.2).sum + f v := by
  induction es with
  | nil => simp [put, lookup]
  | cons e es ih =>
    obtain ⟨h1, h2⟩ := List.pairwise_cons.mp h
    unfold put
    split_ifs with hk hk'
    · have hne : ¬ e.1 = k := ne_of_gt hk
      have hnone : lookup k es = none := by
        rw [Option.eq_none_iff_forall_ne_some]
        intro w hw
        exact absurd (lt_trans hk (h1 _ ((lookup_eq_some h2).mp hw))) (lt_irrefl _)
      simp [lookup, hne, hnone]; omega
    · simp [lookup, hk']; omega
    · have := ih h2
      simp only [List.map_cons, List.sum_cons, lookup, hk', if_false]
      omega

/-- Storing a value replaces the summand of the value stored before. -/
theorem sum_insert (m : SortedMap κ ν) (f : ν → ℕ) (k : κ) (v : ν) :
    (m.insert k v).sum f + ((m.find k).map f).getD 0 = m.sum f + f v := sum_put f k v m.sorted

/-- Erasing an entry removes its summand. -/
theorem sum_erase (m : SortedMap κ ν) (f : ν → ℕ) (k : κ) :
    (m.erase k).sum f + ((m.find k).map f).getD 0 = m.sum f := by
  cases hk : m.find k with
  | none =>
    have : m.erase k = m := ext_find fun k' => by
      rw [find_erase]
      split_ifs with h
      · rw [← h, hk]
      · rfl
    rw [this]
    rfl
  | some v =>
    have hins : (m.erase k).insert k v = m := ext_find fun k' => by
      rw [find_insert]
      split_ifs with h
      · rw [← h, hk]
      · rw [find_erase, if_neg h]
    have hnone : (m.erase k).find k = none := by rw [find_erase, if_pos rfl]
    have := sum_insert (m.erase k) f k v
    rw [hins, hnone] at this
    simpa using this.symm

theorem le_sum (m : SortedMap κ ν) (f : ν → ℕ) {k : κ} {v : ν} (h : m.find k = some v) :
    f v ≤ m.sum f :=
  List.single_le_sum (fun _ _ => Nat.zero_le _) _
    (List.mem_map.mpr ⟨(k, v), mem_entries.mpr h, rfl⟩)

end SortedMap
