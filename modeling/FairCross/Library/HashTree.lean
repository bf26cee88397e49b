import Mathlib

/-!
# Hash chains and hash trees

A chain starts at a genesis digest and absorbs one item after another. When absorbing an item loses
neither the digest nor the item, and never leads back to genesis, the last digest determines all items
and their order.

In a binary hash tree over a list a layer of digests is halved by combining neighbours, the last digest
of an odd layer with a padding digest, until one digest is left: the root. When combining is injective
and what it returns is neither a leaf nor the padding, the root determines the leaves (`HasRoot.inj`):
the height of a digest can be read off it, so that lists of different lengths do not share a root
either.
-/

namespace HashChain

variable {δ σ : Type} {f : δ → σ → δ} {genesis : δ}

/-- Absorbing is injective and does not reach genesis. -/
structure Binding (f : δ → σ → δ) (genesis : δ) : Prop where
  inj : ∀ {h h' s s'}, f h s = f h' s' → h = h' ∧ s = s'
  ne_genesis : ∀ h s, f h s ≠ genesis

/-- Only the empty chain ends in genesis. -/
theorem Binding.eq_nil (hf : Binding f genesis) {xs : List σ} (h : xs.foldl f genesis = genesis) :
    xs = [] := by
  rcases List.eq_nil_or_concat xs with rfl | ⟨ys, y, rfl⟩
  · rfl
  · rw [List.concat_eq_append, List.foldl_append] at h
    exact absurd h (hf.ne_genesis _ y)

/-- **Binding.** Chains with the same end have absorbed the same items; they are unwound from the end. -/
theorem Binding.foldl_inj (hf : Binding f genesis) {xs ys : List σ}
    (h : xs.foldl f genesis = ys.foldl f genesis) : xs = ys := by
  induction xs using List.reverseRecOn generalizing ys with
  | nil => exact (hf.eq_nil h.symm).symm
  | append_singleton xs x ih =>
    rcases List.eq_nil_or_concat ys with rfl | ⟨ys, y, rfl⟩
    · exact hf.eq_nil h
    · rw [List.concat_eq_append, List.foldl_append, List.foldl_append] at h
      obtain ⟨hrest, rfl⟩ := hf.inj h
      rw [ih hrest, List.concat_eq_append]

end HashChain

namespace HashTree

variable {D : Type} (combine : D → D → D) (pad : D)

/-- The layer above. -/
def pairUp : List D → List D
  | [] => []
  | [a] => [combine a pad]
  | a :: b :: rest => combine a b :: pairUp rest

theorem length_pairUp : ∀ l : List D, (pairUp combine pad l).length = (l.length + 1) / 2
  | [] => by simp [pairUp]
  | [_] => by simp [pairUp]
  | _ :: _ :: rest => by
    rw [pairUp, List.length_cons, length_pairUp rest, List.length_cons, List.length_cons]
    omega

/-- The parent of the digest at position `i` combines it with its neighbour. -/
theorem getElem?_pairUp : ∀ (l : List D) {i : ℕ} {a : D}, l[i]? = some a →
    (pairUp combine pad l)[i / 2]? =
      some (if i % 2 = 1 then combine ((l[i - 1]?).getD pad) a else combine a ((l[i + 1]?).getD pad))
  | [], i, a, h => by simp at h
  | [b], i, a, h => by
    rcases i with - | i
    · obtain rfl : b = a := by simpa using h
      rfl
    · simp at h
  | b :: c :: rest, 0, a, h => by
    obtain rfl : b = a := by simpa using h
    rfl
  | b :: c :: rest, 1, a, h => by
    obtain rfl : c = a := by simpa using h
    rfl
  | b :: c :: rest, i + 2, a, h => by
    have hrec := getElem?_pairUp rest (i := i) (a := a) (by simpa using h)
    have hdiv : (i + 2) / 2 = i / 2 + 1 := by omega
    have hmod : (i + 2) % 2 = i % 2 := by omega
    rw [hdiv, hmod, pairUp, List.getElem?_cons_succ, hrec]
    by_cases hi : i % 2 = 1
    · obtain ⟨j, rfl⟩ : ∃ j, i = j + 1 := ⟨i - 1, by omega⟩
      simp [hi]
    · simp [hi]

/-- The layers from `l` up to the root. Halving `l` at most `fuel` times has to be enough. -/
def layersFrom : ℕ → List D → List (List D)
  | 0, l => [l]
  | fuel + 1, l => if l.length ≤ 1 then [l] else l :: layersFrom fuel (pairUp combine pad l)

/-- The first layer is the one the layers are built from. -/
theorem layersFrom_eq_cons (fuel : ℕ) (l : List D) :
    ∃ rest, layersFrom combine pad fuel l = l :: rest := by
  cases fuel with
  | zero => exact ⟨[], rfl⟩
  | succ fuel =>
    unfold layersFrom
    split_ifs
    · exact ⟨[], rfl⟩
    · exact ⟨_, rfl⟩

/-- `r` is what repeated halving leaves of `l`. -/
inductive HasRoot : List D → D → Prop
  | single (a : D) : HasRoot [a] a
  | step {l : List D} {r : D} : 2 ≤ l.length → HasRoot (pairUp combine pad l) r → HasRoot l r

variable {combine pad} in
/-- There is one root. -/
theorem HasRoot.unique {l : List D} {r r' : D} (h : HasRoot combine pad l r)
    (h' : HasRoot combine pad l r') : r = r' := by
  induction h with
  | single a =>
    cases h' with
    | single => rfl
    | step hlen _ => exact absurd hlen (by simp)
  | step hlen _ ih =>
    cases h' with
    | single => exact absurd hlen (by simp)
    | step _ h' => exact ih h'

/-- The topmost layer holds the root alone. -/
theorem layersFrom_getLast {fuel : ℕ} : ∀ {l : List D}, l ≠ [] → l.length ≤ fuel + 1 →
    ∃ r, (layersFrom combine pad fuel l).getLast? = some [r] ∧ HasRoot combine pad l r := by
  induction fuel with
  | zero =>
    intro l hne hlen
    obtain ⟨a, rfl⟩ := List.length_eq_one_iff.mp
      (show l.length = 1 by have := List.length_pos_iff.mpr hne; omega)
    exact ⟨a, rfl, .single a⟩
  | succ fuel ih =>
    intro l hne hlen
    have hpos := List.length_pos_iff.mpr hne
    unfold layersFrom
    by_cases h1 : l.length ≤ 1
    · obtain ⟨a, rfl⟩ := List.length_eq_one_iff.mp (show l.length = 1 by omega)
      exact ⟨a, rfl, .single a⟩
    · have hup := length_pairUp combine pad l
      have hne' : pairUp combine pad l ≠ [] := by
        rw [← List.length_pos_iff]
        omega
      obtain ⟨r, hr, hroot⟩ := ih hne' (by omega)
      refine ⟨r, ?_, .step (by omega) hroot⟩
      rw [if_neg h1, List.getLast?_cons, hr]
      rfl

/-! ## Binding -/

/-- Combining is free over the digests in `leaf`: it can be undone, and what it returns is neither a
leaf nor the padding. -/
structure Free (leaf : D → Prop) : Prop where
  inj : ∀ {a b a' b'}, combine a b = combine a' b' → a = a' ∧ b = b'
  not_leaf : ∀ a b, ¬ leaf (combine a b)
  ne_pad : ∀ a b, combine a b ≠ pad
  pad_not_leaf : ¬ leaf pad

/-- The digests `k` layers above the leaves. -/
def AtLevel (leaf : D → Prop) : ℕ → D → Prop
  | 0, d => leaf d
  | k + 1, d => ∃ a b, d = combine a b ∧ AtLevel leaf k a ∧ (AtLevel leaf k b ∨ b = pad)

variable {combine pad} {leaf : D → Prop} (hfree : Free combine pad leaf)
include hfree

theorem Free.pad_not_atLevel (k : ℕ) : ¬ AtLevel combine pad leaf k pad := by
  intro h
  cases k with
  | zero => exact hfree.pad_not_leaf h
  | succ k =>
    obtain ⟨a, b, hab, -⟩ := h
    exact hfree.ne_pad a b hab.symm

/-- The level of a digest is unique. -/
theorem Free.level_unique {j k : ℕ} {d : D} (hj : AtLevel combine pad leaf j d)
    (hk : AtLevel combine pad leaf k d) : j = k := by
  induction j generalizing k d with
  | zero =>
    cases k with
    | zero => rfl
    | succ k =>
      obtain ⟨a, b, rfl, -⟩ := hk
      exact absurd hj (hfree.not_leaf a b)
  | succ j ih =>
    obtain ⟨a, b, rfl, ha, -⟩ := hj
    cases k with
    | zero => exact absurd hk (hfree.not_leaf a b)
    | succ k =>
      obtain ⟨a', b', hab, ha', -⟩ := hk
      obtain ⟨rfl, -⟩ := hfree.inj hab
      rw [ih ha ha']

omit hfree in
theorem pairUp_atLevel {k : ℕ} : ∀ {l : List D}, (∀ d ∈ l, AtLevel combine pad leaf k d) →
    ∀ d ∈ pairUp combine pad l, AtLevel combine pad leaf (k + 1) d
  | [], _, d, hd => by cases hd
  | [a], h, d, hd => by
    obtain rfl := List.mem_singleton.mp hd
    exact ⟨a, pad, rfl, h a (List.mem_cons_self ..), Or.inr rfl⟩
  | a :: b :: rest, h, d, hd => by
    rcases List.mem_cons.mp hd with rfl | hd
    · exact ⟨a, b, rfl, h a (by simp), Or.inl (h b (by simp))⟩
    · refine pairUp_atLevel (fun e he => h e ?_) d hd
      exact List.mem_cons_of_mem _ (List.mem_cons_of_mem _ he)

/-- Halving forgets nothing of a layer that does not hold the padding. -/
theorem Free.pairUp_inj : ∀ {l l' : List D}, pad ∉ l → pad ∉ l' →
    pairUp combine pad l = pairUp combine pad l' → l = l'
  | [], [], _, _, _ => rfl
  | [], [_], _, _, h => by simp [pairUp] at h
  | [], _ :: _ :: _, _, _, h => by simp [pairUp] at h
  | [_], [], _, _, h => by simp [pairUp] at h
  | _ :: _ :: _, [], _, _, h => by simp [pairUp] at h
  | [a], [a'], _, _, h => by
    have := hfree.inj (List.cons.inj h).1
    rw [this.1]
  | [a], a' :: b' :: rest', _, hl', h => by
    have := (hfree.inj (List.cons.inj h).1).2
    exact absurd (this ▸ List.mem_cons_of_mem _ (List.mem_cons_self ..)) hl'
  | a :: b :: rest, [a'], hl, _, h => by
    have := (hfree.inj (List.cons.inj h).1).2
    exact absurd (this ▸ List.mem_cons_of_mem _ (List.mem_cons_self ..)) hl
  | a :: b :: rest, a' :: b' :: rest', hl, hl', h => by
    obtain ⟨hab, hrest⟩ := List.cons.inj h
    obtain ⟨rfl, rfl⟩ := hfree.inj hab
    rw [Free.pairUp_inj (fun hm => hl (by simp [hm])) (fun hm => hl' (by simp [hm])) hrest]

omit hfree in
/-- The root is above the layer, strictly when something was combined. -/
theorem HasRoot.level {l : List D} {r : D} (h : HasRoot combine pad l r) {k : ℕ}
    (hl : ∀ d ∈ l, AtLevel combine pad leaf k d) :
    ∃ n, AtLevel combine pad leaf (k + n) r ∧ (2 ≤ l.length → 0 < n) := by
  induction h generalizing k with
  | single a => exact ⟨0, hl a (List.mem_cons_self ..), fun h => absurd h (by simp)⟩
  | step _ _ ih =>
    obtain ⟨n, hn, -⟩ := ih (pairUp_atLevel hl)
    refine ⟨n + 1, ?_, fun _ => Nat.succ_pos n⟩
    rwa [Nat.add_assoc, Nat.add_comm 1 n] at hn

/-- **Binding.** Layers of one level with the same root are the same. -/
theorem HasRoot.inj {l l' : List D} {r : D} (h : HasRoot combine pad l r)
    (h' : HasRoot combine pad l' r) {k : ℕ} (hl : ∀ d ∈ l, AtLevel combine pad leaf k d)
    (hl' : ∀ d ∈ l', AtLevel combine pad leaf k d) : l = l' := by
  have hpad : ∀ {m : List D} {k : ℕ}, (∀ d ∈ m, AtLevel combine pad leaf k d) → pad ∉ m :=
    fun hm hp => hfree.pad_not_atLevel _ (hm pad hp)
  -- a single digest is its own root, so it cannot share it with a longer layer
  have hlone : ∀ {m : List D} {a : D} {k : ℕ}, HasRoot combine pad m a → 2 ≤ m.length →
      (∀ d ∈ m, AtLevel combine pad leaf k d) → ¬ AtLevel combine pad leaf k a := by
    intro m a k hm h2 hlev ha
    obtain ⟨n, hn, hpos⟩ := hm.level hlev
    have := hfree.level_unique ha hn
    have := hpos h2
    omega
  induction h generalizing l' k with
  | single a =>
    cases h' with
    | single => rfl
    | step h2 hr => exact absurd (hl a (List.mem_cons_self ..)) (hlone (.step h2 hr) h2 hl')
  | @step l r h2 hr ih =>
    cases h' with
    | single =>
      exact absurd (hl' r (List.mem_cons_self ..)) (hlone (.step h2 hr) h2 hl)
    | step h2' hr' =>
      have := ih hr' (pairUp_atLevel hl) (pairUp_atLevel hl')
      exact hfree.pairUp_inj (hpad hl) (hpad hl') this

/-! ## Paths -/

/-- One step up: combine with a sibling, which stands on the left when the flag is set. -/
def ascend (combine : D → D → D) (d : D) (s : Bool × D) : D :=
  if s.1 then combine s.2 d else combine d s.2

omit hfree in
/-- What a non-empty path leads to is a combination. -/
theorem foldl_ascend_concat (combine : D → D → D) (c : D) (path : List (Bool × D)) (s : Bool × D) :
    ∃ a b, (path ++ [s]).foldl (ascend combine) c = combine a b ∧
      (a = path.foldl (ascend combine) c ∨ b = path.foldl (ascend combine) c) := by
  rw [List.foldl_append]
  by_cases hs : s.1 = true
  · exact ⟨_, _, by simp only [List.foldl_cons, List.foldl_nil, ascend, hs, if_true]; rfl, Or.inr rfl⟩
  · exact ⟨_, _, by simp only [List.foldl_cons, List.foldl_nil, ascend, hs]; rfl, Or.inl rfl⟩

omit hfree in
theorem mem_pairUp : ∀ {l : List D} {d : D}, d ∈ pairUp combine pad l →
    ∃ a b, d = combine a b ∧ a ∈ l ∧ (b ∈ l ∨ b = pad)
  | [], d, hd => by cases hd
  | [a], d, hd => by
    obtain rfl := List.mem_singleton.mp hd
    exact ⟨a, pad, rfl, List.mem_cons_self .., Or.inr rfl⟩
  | a :: b :: rest, d, hd => by
    rcases List.mem_cons.mp hd with rfl | hd
    · exact ⟨a, b, rfl, by simp, Or.inl (by simp)⟩
    · obtain ⟨a', b', h, ha, hb⟩ := mem_pairUp hd
      refine ⟨a', b', h, by simp [ha], ?_⟩
      rcases hb with hb | hb
      · exact Or.inl (by simp [hb])
      · exact Or.inr hb

/-- A path from a leaf never stops at the padding. -/
theorem Free.foldl_ascend_ne_pad {c : D} (hc : leaf c) (path : List (Bool × D)) :
    path.foldl (ascend combine) c ≠ pad := by
  intro hp
  rcases List.eq_nil_or_concat' path with rfl | ⟨p, s, rfl⟩
  · exact hfree.pad_not_leaf (hp ▸ hc)
  · obtain ⟨a, b, hab, -⟩ := foldl_ascend_concat combine c p s
    exact hfree.ne_pad a b (hab.symm.trans hp)

/-- A path from a leaf to the root of a layer passes through the layer. -/
theorem HasRoot.exists_prefix {l : List D} {r : D} (h : HasRoot combine pad l r) {c : D}
    (hc : leaf c) {path : List (Bool × D)} (hp : path.foldl (ascend combine) c = r) :
    ∃ p, p <+: path ∧ p.foldl (ascend combine) c ∈ l := by
  induction h with
  | single a => exact ⟨path, List.prefix_rfl, hp ▸ List.mem_cons_self ..⟩
  | @step l r h2 hr ih =>
    obtain ⟨p, hpre, hmem⟩ := ih hp
    obtain ⟨a, b, hab, ha, hb⟩ := mem_pairUp hmem
    rcases List.eq_nil_or_concat' p with rfl | ⟨q, s, rfl⟩
    · exact absurd (hab ▸ hc) (hfree.not_leaf a b)
    · have hq : q <+: path := (List.prefix_append q [s]).trans hpre
      obtain ⟨a', b', hab', hq'⟩ := foldl_ascend_concat combine c q s
      obtain ⟨rfl, rfl⟩ := hfree.inj (hab'.symm.trans hab)
      refine ⟨q, hq, ?_⟩
      rcases hq' with he | he
      · rw [← he]
        exact ha
      · rw [← he]
        rcases hb with hb | hb
        · exact hb
        · exact absurd (he.symm.trans hb) (hfree.foldl_ascend_ne_pad hc q)

/-- **Soundness of paths.** Whatever path leads from a leaf to the root, the leaf is in the layer. -/
theorem HasRoot.mem_of_path {l : List D} {r : D} (h : HasRoot combine pad l r)
    (hl : ∀ d ∈ l, leaf d) {c : D} (hc : leaf c) {path : List (Bool × D)}
    (hp : path.foldl (ascend combine) c = r) : c ∈ l := by
  obtain ⟨p, -, hmem⟩ := h.exists_prefix hfree hc hp
  rcases List.eq_nil_or_concat' p with rfl | ⟨q, s, rfl⟩
  · exact hmem
  · obtain ⟨a, b, hab, -⟩ := foldl_ascend_concat combine c q s
    exact absurd (hab ▸ hl _ hmem) (hfree.not_leaf a b)

/-- A fixed path does not confuse two digests. -/
theorem Free.foldl_ascend_inj {c c' : D} {path : List (Bool × D)}
    (h : path.foldl (ascend combine) c = path.foldl (ascend combine) c') : c = c' := by
  induction path generalizing c c' with
  | nil => exact h
  | cons s path ih =>
    have h1 := ih h
    unfold ascend at h1
    split_ifs at h1
    · exact (hfree.inj h1).2
    · exact (hfree.inj h1).1

end HashTree
