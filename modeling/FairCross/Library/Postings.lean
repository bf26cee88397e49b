import Mathlib

/-!
# Postings

A posting adds an amount to the balance of one account; a loop posts a list of them, and refuses a
posting whose new balance is not admissible. What the loop does to a balance is the net amount
posted to the account (`foldlM_read`), and the loop succeeds exactly when every running balance is
admissible (`foldlM_isOk`).
-/

namespace Postings

variable {ε σ κ ρ M : Type} [DecidableEq κ] [AddCommMonoid M]

/-- The net amount the postings of `l` add to account `k`. -/
def net (account : ρ → κ) (amount : ρ → M) (l : List ρ) (k : κ) : M :=
  ((l.filter fun r => account r = k).map amount).sum

section Net

variable (account : ρ → κ) (amount : ρ → M)

@[simp] theorem net_nil (k : κ) : net account amount [] k = 0 := rfl

theorem net_append (l l' : List ρ) (k : κ) :
    net account amount (l ++ l') k = net account amount l k + net account amount l' k := by
  simp [net]

theorem net_cons (r : ρ) (l : List ρ) (k : κ) :
    net account amount (r :: l) k =
      (if account r = k then amount r else 0) + net account amount l k := by
  by_cases h : account r = k <;> simp [net, h]

theorem net_eq_sum (l : List ρ) (k : κ) :
    net account amount l k = (l.map fun r => if account r = k then amount r else 0).sum := by
  induction l with
  | nil => rfl
  | cons r l ih => rw [net_cons, List.map_cons, List.sum_cons, ih]

theorem net_take_succ (l : List ρ) {i : ℕ} (hi : i < l.length) (k : κ) :
    net account amount (l.take (i + 1)) k =
      net account amount (l.take i) k + if account l[i] = k then amount l[i] else 0 := by
  rw [List.take_succ_eq_append_getElem hi, net_append, net_cons, net_nil, add_zero]

end Net

/-- A sum of pairs, by component. -/
theorem sum_components {M' : Type} [AddCommMonoid M'] (f : ρ → M × M') (l : List ρ) :
    (l.map f).sum = ((l.map fun r => (f r).1).sum, (l.map fun r => (f r).2).sum) := by
  induction l with
  | nil => rfl
  | cons r l ih => rw [List.map_cons, List.sum_cons, ih]; rfl

variable {account : ρ → κ} {amount : ρ → M} {read : σ → κ → M} {step : σ → ρ → Except ε σ}

/-- A successful step posts its amount, and nothing else. -/
def Posts (account : ρ → κ) (amount : ρ → M) (read : σ → κ → M) (step : σ → ρ → Except ε σ)
    (r : ρ) : Prop :=
  ∀ s s', step s r = .ok s' → ∀ k, read s' k = read s k + if account r = k then amount r else 0

/-- The balances after a successful loop. -/
theorem foldlM_read {l : List ρ} (hpost : ∀ r ∈ l, Posts account amount read step r) {s s' : σ}
    (h : l.foldlM step s = .ok s') (k : κ) : read s' k = read s k + net account amount l k := by
  induction l generalizing s with
  | nil =>
    obtain rfl : s = s' := by simpa [pure, Except.pure] using h
    rw [net_nil, add_zero]
  | cons r l ih =>
    rw [List.foldlM_cons] at h
    cases hr : step s r with
    | error e => rw [hr] at h; cases h
    | ok t =>
      rw [hr] at h
      rw [ih (fun r' hr' => hpost r' (List.mem_cons_of_mem _ hr')) h,
        hpost r (List.mem_cons_self ..) s t hr, net_cons, add_assoc]

/-- **Replay.** A loop that refuses a posting exactly when the new balance is not admissible
succeeds exactly when all running balances are. -/
theorem foldlM_isOk (ok : ρ → M → Prop) {l : List ρ}
    (hpost : ∀ r ∈ l, Posts account amount read step r)
    (hok : ∀ r ∈ l, ∀ s, (∃ s', step s r = .ok s') ↔ ok r (read s (account r) + amount r)) {s : σ} :
    (∃ s', l.foldlM step s = .ok s') ↔ ∀ i (hi : i < l.length),
      ok l[i] (read s (account l[i]) + net account amount (l.take i) (account l[i]) + amount l[i]) := by
  induction l generalizing s with
  | nil => simp [pure, Except.pure]
  | cons r l ih =>
    have ih' := fun {t} => ih (fun r' hr' => hpost r' (List.mem_cons_of_mem _ hr'))
      (fun r' hr' => hok r' (List.mem_cons_of_mem _ hr')) (s := t)
    have hr := hok r (List.mem_cons_self ..) s
    -- the running balances after the first posting are those of the rest, from the new state
    have hshift : ∀ t, step s r = .ok t → ((∀ i (hi : i < l.length),
        ok l[i] (read t (account l[i]) + net account amount (l.take i) (account l[i]) + amount l[i])) ↔
        ∀ i (hi : i < l.length), ok l[i] (read s (account l[i]) +
          net account amount (r :: l.take i) (account l[i]) + amount l[i])) := by
      intro t ht
      refine forall_congr' fun i => forall_congr' fun hi => ?_
      rw [hpost r (List.mem_cons_self ..) s t ht, net_cons, add_assoc (read s _)]
    constructor
    · rintro ⟨s', h⟩
      rw [List.foldlM_cons] at h
      cases ht : step s r with
      | error e => rw [ht] at h; cases h
      | ok t =>
        rw [ht] at h
        intro i hi
        cases i with
        | zero => simpa using hr.mp ⟨t, ht⟩
        | succ i => exact (hshift t ht).mp (ih'.mp ⟨s', h⟩) i (by simpa using hi)
    · intro h
      have h0 : ok r (read s (account r) + net account amount [] (account r) + amount r) :=
        h 0 (Nat.succ_pos _)
      rw [net_nil, add_zero] at h0
      obtain ⟨t, ht⟩ := hr.mpr h0
      obtain ⟨s', hs'⟩ := ih'.mpr ((hshift t ht).mpr fun i hi => h (i + 1) (by simpa using hi))
      exact ⟨s', by rw [List.foldlM_cons, ht]; exact hs'⟩

/-! ## The accounts one by one -/

/-- The postings `l` of one account, posted to the balance `m` one after another, are all admitted. -/
def Runs (ok : ρ → M → Prop) (amount : ρ → M) (m : M) : List ρ → Prop
  | [] => True
  | r :: l => ok r (m + amount r) ∧ Runs ok amount (m + amount r) l

/-- The loop succeeds exactly when the postings of every account are admitted by themselves. -/
theorem foldlM_isOk_iff_runs (ok : ρ → M → Prop) {l : List ρ}
    (hpost : ∀ r ∈ l, Posts account amount read step r)
    (hok : ∀ r ∈ l, ∀ s, (∃ s', step s r = .ok s') ↔ ok r (read s (account r) + amount r)) {s : σ} :
    (∃ s', l.foldlM step s = .ok s') ↔
      ∀ k, Runs ok amount (read s k) (l.filter fun r => account r = k) := by
  induction l generalizing s with
  | nil => simp [pure, Except.pure, Runs]
  | cons r l ih =>
    have ih' := fun {t} => ih (fun r' hr' => hpost r' (List.mem_cons_of_mem _ hr'))
      (fun r' hr' => hok r' (List.mem_cons_of_mem _ hr')) (s := t)
    have hr := hok r (List.mem_cons_self ..) s
    -- from the state the first posting leaves, the others run as they do behind it
    have hshift : ∀ t, step s r = .ok t → ∀ k,
        (Runs ok amount (read t k) (l.filter fun r => account r = k) ↔
          Runs ok amount (read s k) ((r :: l).filter fun r => account r = k)) := by
      intro t ht k
      rw [hpost r (List.mem_cons_self ..) s t ht k]
      by_cases hk : account r = k
      · rw [List.filter_cons_of_pos (by simpa using hk), if_pos hk, Runs, ← hk]
        exact ⟨fun h => ⟨hr.mp ⟨t, ht⟩, h⟩, fun h => h.2⟩
      · rw [List.filter_cons_of_neg (by simpa using hk), if_neg hk, add_zero]
    constructor
    · rintro ⟨s', h⟩
      rw [List.foldlM_cons] at h
      cases ht : step s r with
      | error e => rw [ht] at h; cases h
      | ok t =>
        rw [ht] at h
        exact fun k => (hshift t ht k).mp (ih'.mp ⟨s', h⟩ k)
    · intro h
      have h0 := h (account r)
      rw [List.filter_cons_of_pos (by simp), Runs] at h0
      obtain ⟨t, ht⟩ := hr.mpr h0.1
      obtain ⟨s', hs'⟩ := ih'.mpr fun k => (hshift t ht k).mpr (h k)
      exact ⟨s', by rw [List.foldlM_cons, ht]; exact hs'⟩

/-- The postings of the accounts can be ordered independently of each other. -/
theorem exists_perm_filter_eq (account : ρ → κ) {l : List ρ} {m : κ → List ρ}
    (hm : ∀ k, (m k).Perm (l.filter fun r => account r = k)) :
    ∃ l' : List ρ, l'.Perm l ∧ ∀ k, l'.filter (fun r => account r = k) = m k := by
  have hsome : ∀ ks : List κ, ∃ l' : List ρ, l'.Perm l ∧
      ∀ k ∈ ks, l'.filter (fun r => account r = k) = m k := by
    intro ks
    induction ks with
    | nil => exact ⟨l, .refl _, by simp⟩
    | cons k ks ih =>
      obtain ⟨l', hl', hks⟩ := ih
      -- the postings of `k` go to the front, in their new order
      refine ⟨m k ++ l'.filter (fun r => ¬ account r = k), ?_, ?_⟩
      · have hk := (hm k).trans (hl'.symm.filter fun r => decide (account r = k))
        refine (hk.append_right _).trans (List.Perm.trans ?_ hl')
        simpa using List.filter_append_perm (fun r => decide (account r = k)) l'
      · intro k' hk'
        have hin : ∀ r ∈ m k, account r = k := fun r hr => by
          simpa using (List.mem_filter.mp ((hm k).mem_iff.mp hr)).2
        rw [List.filter_append, List.filter_filter]
        by_cases h : k' = k
        · subst h
          rw [List.filter_eq_self.mpr fun r hr => by simpa using hin r hr,
            List.filter_eq_nil_iff.mpr fun r _ => by simp, List.append_nil]
        · rw [List.filter_eq_nil_iff.mpr fun r hr => by
              rw [hin r hr]
              simpa using Ne.symm h, List.nil_append,
            ← hks k' ((List.mem_cons.mp hk').resolve_left h)]
          refine List.filter_congr fun r _ => ?_
          by_cases hr : account r = k' <;> simp [hr, h]
  obtain ⟨l', hl', hks⟩ := hsome (l.map account)
  refine ⟨l', hl', fun k => ?_⟩
  by_cases hk : k ∈ l.map account
  · exact hks k hk
  · have hnone : ∀ {l'' : List ρ}, l''.Perm l → l''.filter (fun r => account r = k) = [] := by
      intro l'' hp
      refine List.filter_eq_nil_iff.mpr fun r hr => ?_
      have hne : account r ≠ k := fun h => hk (List.mem_map.mpr ⟨r, hp.mem_iff.mp hr, h⟩)
      simpa using hne
    have hnil := (hm k).trans (by rw [hnone (.refl l)])
    rw [hnone hl', hnil.eq_nil]

/-- Some order of all postings does for every account exactly when each account has an order. -/
theorem exists_perm_filter_iff (account : ρ → κ) {l : List ρ} {P : κ → List ρ → Prop} :
    (∃ l' : List ρ, l'.Perm l ∧ ∀ k, P k (l'.filter fun r => account r = k)) ↔
      ∀ k, ∃ m : List ρ, m.Perm (l.filter fun r => account r = k) ∧ P k m := by
  constructor
  · rintro ⟨l', hl', h⟩ k
    exact ⟨_, hl'.filter _, h k⟩
  · intro h
    choose m hm hP using h
    obtain ⟨l', hl', hks⟩ := exists_perm_filter_eq account hm
    exact ⟨l', hl', fun k => by rw [hks k]; exact hP k⟩

/-- Every order of all postings does for every account exactly when every order of each account's
postings does. -/
theorem forall_perm_filter_iff (account : ρ → κ) {l : List ρ} {P : κ → List ρ → Prop} :
    (∀ l' : List ρ, l'.Perm l → ∀ k, P k (l'.filter fun r => account r = k)) ↔
      ∀ (k : κ) (m : List ρ), m.Perm (l.filter fun r => account r = k) → P k m := by
  constructor
  · intro h k m hm
    have hperm : ∀ k', (Function.update (fun k => l.filter fun r => account r = k) k m k').Perm
        (l.filter fun r => account r = k') := by
      intro k'
      by_cases hk : k' = k
      · subst hk
        rw [Function.update_self]
        exact hm
      · rw [Function.update_of_ne hk]
    obtain ⟨l', hl', hks⟩ := exists_perm_filter_eq account hperm
    have := h l' hl' k
    rwa [hks k, Function.update_self] at this
  · intro h l' hl' k
    exact h k _ (hl'.filter _)

theorem net_perm {l l' : List ρ} (hp : l'.Perm l) (k : κ) :
    net account amount l' k = net account amount l k :=
  ((hp.filter _).map _).sum_eq

/-! ## The balance a list of amounts needs -/

/-- The least balance from which all the amounts can be posted without falling below nothing. -/
def need : List ℤ → ℤ
  | [] => 0
  | x :: xs => max 0 (need xs - x)

/-- The amounts above nothing, added up. -/
def gains (l : List ℤ) : ℤ := (l.map fun x => max x 0).sum

/-- The amounts below nothing, added up. -/
def losses (l : List ℤ) : ℤ := (l.map fun x => max (-x) 0).sum

theorem need_nonneg (l : List ℤ) : 0 ≤ need l := by
  cases l with
  | nil => exact le_refl _
  | cons x l => exact le_max_left _ _

theorem need_le_losses (l : List ℤ) : need l ≤ losses l := by
  induction l with
  | nil => exact le_refl _
  | cons x l ih =>
    have : 0 ≤ losses l := (need_nonneg l).trans ih
    simp only [need, losses, List.map_cons, List.sum_cons] at *
    omega

theorem gains_nonneg (l : List ℤ) : 0 ≤ gains l :=
  List.sum_nonneg fun x hx => by
    obtain ⟨y, -, rfl⟩ := List.mem_map.mp hx
    exact le_max_right _ _

theorem sum_le_gains (l : List ℤ) : l.sum ≤ gains l := by
  conv_lhs => rw [← List.map_id l]
  exact List.sum_le_sum fun x _ => le_max_left _ _

/-- Started from the needed balance, a running balance covers what is still needed, and exceeds it
only by what was gained. -/
theorem need_append (l l' : List ℤ) : need l' ≤ need (l ++ l') + l.sum ∧
    need (l ++ l') + l.sum ≤ max (need l') (gains l) := by
  induction l with
  | nil => simp [gains]
  | cons x l ih =>
    obtain ⟨h1, h2⟩ := ih
    have hg := sum_le_gains l
    have hn := need_nonneg (l ++ l')
    have hcons : gains (x :: l) = max x 0 + gains l := by simp [gains]
    rw [hcons, List.cons_append, need, List.sum_cons]
    constructor
    · omega
    · rw [le_max_iff] at h2 ⊢
      rcases le_total x 0 with hx | hx
      · rw [max_eq_right hx]
        omega
      · rw [max_eq_left hx]
        omega

/-- The running balances stay within the larger of all losses and all gains. -/
theorem need_add_sum {l l' : List ℤ} {b : ℤ} (hl : losses (l ++ l') ≤ b) (hg : gains (l ++ l') ≤ b) :
    0 ≤ need (l ++ l') + l.sum ∧ need (l ++ l') + l.sum ≤ b := by
  obtain ⟨h1, h2⟩ := need_append l l'
  have h3 := need_nonneg l'
  have h4 := need_le_losses l'
  have h5 : losses l' ≤ losses (l ++ l') := by
    simp only [losses, List.map_append, List.sum_append]
    have : 0 ≤ losses l := (need_nonneg l).trans (need_le_losses l)
    unfold losses at this
    omega
  have h6 : gains l ≤ gains (l ++ l') := by
    simp only [gains, List.map_append, List.sum_append]
    have := gains_nonneg l'
    unfold gains at this
    omega
  omega

/-- Amounts that are not negative add up to at most as much on distinct accounts as in total. -/
theorem sum_net_le (account : ρ → κ) {w : ρ → ℤ} (hw : ∀ r, 0 ≤ w r) {ks : List κ} (hnd : ks.Nodup) (l : List ρ) :
    (ks.map (net account w l)).sum ≤ (l.map w).sum := by
  have hone : ∀ (k : κ) (c : ℤ), 0 ≤ c → (ks.map fun k' => if k = k' then c else 0).sum ≤ c := by
    intro k c hc
    induction ks with
    | nil => exact hc
    | cons k' ks ih =>
      obtain ⟨hk, hnd'⟩ := List.nodup_cons.mp hnd
      rw [List.map_cons, List.sum_cons]
      by_cases h : k = k'
      · have : (ks.map fun k' => if k = k' then c else 0).sum = 0 :=
          List.sum_eq_zero fun x hx => by
            obtain ⟨k'', hk'', rfl⟩ := List.mem_map.mp hx
            exact if_neg fun he => hk ((h.symm.trans he) ▸ hk'')
        rw [if_pos h, this, add_zero]
      · rw [if_neg h, zero_add]
        exact ih hnd'
  induction l with
  | nil => exact (List.sum_eq_zero fun x hx => by
      obtain ⟨k, -, rfl⟩ := List.mem_map.mp hx
      rfl).le
  | cons r l ih =>
    have hsplit : (ks.map (net account w (r :: l))).sum =
        (ks.map fun k => if account r = k then w r else 0).sum + (ks.map (net account w l)).sum := by
      rw [← List.sum_map_add]
      congr 1
      exact List.map_congr_left fun k _ => net_cons account w r l k
    rw [hsplit, List.map_cons, List.sum_cons]
    exact add_le_add (hone _ _ (hw r)) ih

end Postings
