import FairCross.Proof.Wiring
import FairCross.Proof.Proofs.CompletenessProofs

/-!
# Variables and scalars stay aligned

The subrelations allocate from one counter and push to vectors of their own. A run of the synthesis is
followed by a run of the wiring: at every point the scalars pushed so far, and those still to be pushed
for variables that are allocated already, are the scalars of the wiring in the order of its variables.
-/

namespace FairCross

open LinearCombination

/-! ## The variables of a linear combination -/

namespace LinearCombination

@[simp] theorem vars_zero : zero.vars = [] := rfl

@[simp] theorem vars_fromVar (v : Variable) : (fromVar v).vars = [v] := rfl

@[simp] theorem vars_fromConstant (c : Scalar) : (fromConstant c).vars = [.one] := rfl

@[simp] theorem vars_addTerm (lc : LinearCombination) (v : Variable) {coeff : Scalar}
    (h : coeff ≠ 0) : (lc.addTerm v coeff).vars = lc.vars ++ [v] := by
  rw [addTerm, if_pos h]
  simp [vars]

theorem vars_addTerm_subset (lc : LinearCombination) (v : Variable) (coeff : Scalar) :
    (lc.addTerm v coeff).vars ⊆ lc.vars ++ [v] := by
  by_cases h : coeff = 0
  · rw [addTerm, if_neg (not_not.mpr h)]
    exact List.subset_append_left _ _
  · rw [vars_addTerm lc v h]
    exact List.Subset.refl _

theorem vars_foldl_subset (terms : List (Variable × Scalar)) (lc : LinearCombination) :
    (terms.foldl (fun lc t => lc.addTerm t.1 (-t.2)) lc).vars ⊆
      lc.vars ++ terms.map (·.1) := by
  induction terms generalizing lc with
  | nil => simp
  | cons t terms ih =>
    intro v hv
    rcases List.mem_append.mp (ih _ hv) with h | h
    · have := vars_addTerm_subset lc t.1 (-t.2) h
      simp only [List.mem_append, List.mem_singleton] at this
      rcases this with h | rfl
      · exact List.mem_append_left _ h
      · simp
    · simp only [List.map_cons, List.mem_append, List.mem_cons]
      exact Or.inr (Or.inr h)

end LinearCombination

/-! ## Runs of the wiring -/

namespace Wiring

/-- Every variable of the list has a scalar. -/
def Knows (t : Wiring) (vs : List Variable) : Prop := ∀ v ∈ vs, (t.scalarOf v).isSome

/-- Scalars are added and none is changed; `publics` are the public ones. -/
structure Extends (publics : List U64) (t t' : Wiring) : Prop where
  publics_eq : t'.publics = t.publics ++ publics
  witnesses_prefix : t.witnesses <+: t'.witnesses

variable {t t' t'' : Wiring} {vs vs' : List Variable} {publics publics' : List U64}

theorem knows_one : t.Knows [.one] := by
  intro v hv
  rw [List.mem_singleton.mp hv]
  rfl

@[simp] theorem knows_nil : t.Knows [] := by
  intro v hv
  cases hv

theorem Knows.append (h : t.Knows vs) (h' : t.Knows vs') : t.Knows (vs ++ vs') := by
  intro v hv
  rcases List.mem_append.mp hv with hv | hv
  · exact h v hv
  · exact h' v hv

theorem Knows.mono (h : t.Knows vs) (hsub : vs' ⊆ .one :: vs) : t.Knows vs' := fun v hv =>
  knows_one.append h v (hsub hv)

theorem Extends.refl : t.Extends [] t := ⟨(List.append_nil _).symm, List.prefix_rfl⟩

theorem Extends.trans (h : t.Extends publics t') (h' : t'.Extends publics' t'') :
    t.Extends (publics ++ publics') t'' := by
  refine ⟨?_, h.witnesses_prefix.trans h'.witnesses_prefix⟩
  rw [h'.publics_eq, h.publics_eq, List.append_assoc]

theorem Extends.knows (h : t.Extends publics t') (hk : t.Knows vs) : t'.Knows vs := by
  intro v hv
  obtain ⟨witnesses, hwit⟩ := h.witnesses_prefix
  unfold scalarOf
  rw [h.publics_eq, ← hwit]
  exact Variable.isSome_scalar_append (hk v hv) _ _

end Wiring

/-! ## The simulation -/

/-- The wiring `t` beside the synthesis `s` of a subrelation: `before` are the scalars of the
subrelations before it, `pending` those of its variables that are allocated but not pushed. -/
structure Follows (before pending : List U64) (s : Synthesis) (t : Wiring) : Prop where
  cs_eq : t.cs = s.cs
  witnesses_eq : t.witnesses = before ++ s.scalars ++ pending

/-- Whatever `m` does, `w` does beside it. The variables `given` have scalars before, those of the
result after; `publics` are the scalars of the public variables. -/
structure Tracks {α : Type} (given : List Variable) (pending : List U64) (m : Synth α) (w : Wire α)
    (publics : List U64) (held : α → List Variable) : Prop where
  run : ∀ {before s t a s'}, Follows before pending s t → t.Knows given → m s = .ok (a, s') →
    ∃ t', w t = some (a, t') ∧ Follows before [] s' t' ∧ t.Extends publics t' ∧ t'.Knows (held a)

namespace Tracks

variable {α β : Type} {given : List Variable} {pending publics publics' : List U64} {m : Synth α}
  {w : Wire α} {held : α → List Variable} {f : α → Synth β} {g : α → Wire β}
  {held' : β → List Variable}

theorem pure {a : α} (h : held a ⊆ .one :: given) :
    Tracks given [] (Pure.pure a) (Pure.pure a) [] held := by
  constructor
  intro before s t b s' hf hk hm
  obtain ⟨rfl, rfl⟩ := Prod.mk.inj (Except.ok.inj hm)
  exact ⟨t, rfl, hf, .refl, hk.mono h⟩

theorem bind (h : Tracks given pending m w publics held)
    (h' : ∀ a, Tracks (held a ++ given) [] (f a) (g a) publics' held') :
    Tracks given pending (m >>= f) (w >>= g) (publics ++ publics') held' := by
  constructor
  intro before s t b s'' hf hk hm
  obtain ⟨a, s', hm, hm'⟩ := Synth.bind_eq_ok.mp hm
  obtain ⟨t', hw, hf', hext, hheld⟩ := h.run hf hk hm
  obtain ⟨t'', hg, hf'', hext', hheld'⟩ := (h' a).run hf' (hheld.append (hext.knows hk)) hm'
  refine ⟨t'', ?_, hf'', hext.trans hext', hheld'⟩
  show (w t).bind (fun p => g p.1 p.2) = _
  rw [hw]
  exact hg

/-- A first part without public variables. -/
theorem seq (h : Tracks given pending m w [] held)
    (h' : ∀ a, Tracks (held a ++ given) [] (f a) (g a) publics' held') :
    Tracks given pending (m >>= f) (w >>= g) publics' held' :=
  h.bind h'

theorem mono {given' : List Variable} (h : Tracks given pending m w publics held)
    (hsub : given ⊆ .one :: given') : Tracks given' pending m w publics held :=
  ⟨fun hf hk hm => h.run hf (hk.mono hsub) hm⟩

/-- A new variable, the same one on both sides. -/
theorem declare {m : Synth Variable} {w : Wire Variable} {pending' : List U64} {f : Variable → Synth β}
    {g : Variable → Wire β}
    (hnew : ∀ {before s t}, Follows before pending s t → ∃ v s₁ t₁, m s = .ok (v, s₁) ∧
      w t = some (v, t₁) ∧ Follows before pending' s₁ t₁ ∧ t.Extends publics t₁ ∧ t₁.Knows [v])
    (h : ∀ v, Tracks (v :: given) pending' (f v) (g v) publics' held') :
    Tracks given pending (m >>= f) (w >>= g) (publics ++ publics') held' := by
  constructor
  intro before s t b s' hf hk hm
  obtain ⟨v, s₁, t₁, hs, hw, hf₁, hext, hv⟩ := hnew hf
  obtain ⟨v', s₁', hs', hrest⟩ := Synth.bind_eq_ok.mp hm
  obtain ⟨rfl, rfl⟩ := Prod.mk.inj (Except.ok.inj (hs.symm.trans hs'))
  obtain ⟨t', hg, hf', hext', hheld⟩ := (h v).run hf₁ (hv.append (hext.knows hk)) hrest
  refine ⟨t', ?_, hf', hext.trans hext', hheld⟩
  show (w t).bind (fun p => g p.1 p.2) = _
  rw [hw]
  exact hg

/-- The scalar of a new witness variable is pending. -/
theorem alloc {x : U64} {f : Variable → Synth β} {g : Variable → Wire β}
    (h : ∀ v, Tracks (v :: given) (pending ++ [x]) (f v) (g v) publics held') :
    Tracks given pending (Synth.allocWitness >>= f) (Wire.allocWitness x >>= g) publics held' := by
  show Tracks _ _ _ _ ([] ++ publics) _
  refine declare (fun {before s t} hf => ?_) h
  obtain ⟨t₁, hw, hcs, hpub, hwit⟩ : ∃ t₁ : Wiring, Wire.allocWitness x t =
      some (.witnessVar t.cs.numWitness, t₁) ∧ t₁.cs = ⟨t.cs.numPublic, t.cs.numWitness + 1,
        t.cs.constraints⟩ ∧ t₁.publics = t.publics ∧ t₁.witnesses = t.witnesses ++ [x] :=
    ⟨_, rfl, rfl, rfl, rfl⟩
  refine ⟨.witnessVar s.cs.numWitness, _, t₁, rfl, by rw [hw, hf.cs_eq], ⟨?_, ?_⟩, ⟨?_, ?_⟩, ?_⟩
  · rw [hcs, hf.cs_eq]
  · rw [hwit, hf.witnesses_eq, List.append_assoc]
  · rw [hpub, List.append_nil]
  · rw [hwit]
    exact List.prefix_append _ _
  · intro v hv
    rw [List.mem_singleton.mp hv, ← hf.cs_eq]
    show (t₁.witnesses[t.cs.numWitness]?).isSome
    rw [hwit, ← t.length_witnesses]
    simp

theorem allocPublic {x : U64} {f : Variable → Synth β} {g : Variable → Wire β}
    (h : ∀ v, Tracks (v :: given) [] (f v) (g v) publics held') :
    Tracks given [] (Synth.allocPublic >>= f) (Wire.allocPublic x >>= g) (x :: publics) held' := by
  show Tracks _ _ _ _ ([x] ++ publics) _
  refine declare (fun {before s t} hf => ?_) h
  obtain ⟨t₁, hw, hcs, hpub, hwit⟩ : ∃ t₁ : Wiring, Wire.allocPublic x t =
      some (.publicVar t.cs.numPublic, t₁) ∧ t₁.cs = ⟨t.cs.numPublic + 1, t.cs.numWitness,
        t.cs.constraints⟩ ∧ t₁.publics = t.publics ++ [x] ∧ t₁.witnesses = t.witnesses :=
    ⟨_, rfl, rfl, rfl, rfl⟩
  refine ⟨.publicVar s.cs.numPublic, _, t₁, rfl, by rw [hw, hf.cs_eq], ⟨?_, ?_⟩, ⟨hpub, ?_⟩, ?_⟩
  · rw [hcs, hf.cs_eq]
  · rw [hwit, hf.witnesses_eq]
  · rw [hwit]
  · intro v hv
    rw [List.mem_singleton.mp hv, ← hf.cs_eq]
    show (t₁.publics[t.cs.numPublic]?).isSome
    rw [hpub, ← t.length_publics]
    simp

/-- The pending scalars are pushed all at once. -/
theorem push {vs : List U64} {f : Unit → Synth α} (h : Tracks given [] (f ()) w publics held) :
    Tracks given vs (Synth.push vs >>= f) w publics held := by
  constructor
  intro before s t a s' hf hk hm
  refine h.run (s := ⟨s.cs, s.scalars ++ vs⟩) ⟨hf.cs_eq, ?_⟩ hk hm
  rw [hf.witnesses_eq, List.append_nil, List.append_assoc]

/-- A constraint whose variables all have scalars is not refused. -/
theorem enforce {a b c : LinearCombination} {label : String}
    (h : a.vars ++ b.vars ++ c.vars ⊆ .one :: given) :
    Tracks given [] (Synth.enforce a b c label) (Wire.enforce a b c label) [] fun _ => [] := by
  constructor
  intro before s t u s' hf hk hm
  obtain ⟨rfl, rfl⟩ := Prod.mk.inj (Except.ok.inj hm)
  have hknown : ∀ v ∈ R1CSConstraint.vars ⟨a, b, c, label⟩, (t.scalarOf v).isSome := hk.mono h
  have hw : Wire.enforce a b c label t = some ((), _) := dif_pos hknown
  refine ⟨_, hw, ⟨?_, hf.witnesses_eq⟩, ⟨(List.append_nil _).symm, List.prefix_rfl⟩, Wiring.knows_nil⟩
  show (⟨t.cs.numPublic, t.cs.numWitness, t.cs.constraints ++ [⟨a, b, c, label⟩]⟩ :
    ConstraintSystem) = _
  rw [hf.cs_eq]
  rfl

theorem enforceEqual {lc1 lc2 : LinearCombination} {label : String}
    (h : lc1.vars ++ lc2.vars ⊆ .one :: given) :
    Tracks given [] (Synth.enforceEqual lc1 lc2 label) (Wire.enforceEqual lc1 lc2 label) []
      fun _ => [] := by
  show Tracks given [] (Synth.enforce _ (fromVar .one) zero label) _ _ _
  refine enforce ?_
  simp only [vars_fromVar, vars_zero, List.append_nil]
  refine List.append_subset.mpr ⟨?_, by simp⟩
  exact List.Subset.trans (vars_foldl_subset lc2.terms lc1) h

/-- The counters are those of the constraint system. -/
theorem observe (h : ConstraintSystem → α) :
    Tracks given [] (do let s ← get; Pure.pure (h s.cs)) (do let t ← get; Pure.pure (h t.cs)) []
      fun _ => [] := by
  constructor
  intro before s t a s' hf hk hm
  obtain ⟨rfl, rfl⟩ := Prod.mk.inj (Except.ok.inj hm)
  refine ⟨t, ?_, hf, .refl, Wiring.knows_nil⟩
  rw [← hf.cs_eq]
  rfl

/-! ### Checks and lookups -/

theorem fail {message : String} : Tracks given pending (Synth.fail message) w publics held := by
  constructor
  intro before s t a s' _ _ hm
  cases hm

/-- A check that the wiring leaves out. -/
theorem check {c : Prop} [Decidable c] {message : String}
    (h : ¬ c → Tracks given pending m w publics held) :
    Tracks given pending (if c then Synth.fail message else m) w publics held := by
  by_cases hc : c
  · rw [if_pos hc]
    exact fail
  · rw [if_neg hc]
    exact h hc

/-- A computation outside the constraint system. -/
theorem lift_bind {γ : Type} {r : Result γ} {f : γ → Synth α}
    (h : ∀ c, r = .ok c → Tracks given pending (f c) w publics held) :
    Tracks given pending (Synth.lift r >>= f) w publics held := by
  cases hr : r with
  | error e =>
    constructor
    intro before s t a s' _ _ hm
    cases hm
  | ok c => exact h c hr

/-- A value that the wiring needs too. -/
theorem found {γ : Type} {o : Option γ} {c : γ} {g : γ → Wire α} (ho : o = some c)
    (h : Tracks given pending m (g c) publics held) :
    Tracks given pending m (Wire.lift o >>= g) publics held := by
  rw [ho]
  exact h

/-! ### Loops -/

theorem forM {ι : Type} {f : ι → Synth Unit} {g : ι → Wire Unit} (l : List ι)
    (h : ∀ x, Tracks given [] (f x) (g x) [] fun _ => []) :
    Tracks given [] (l.forM f) (l.forM g) [] fun _ => [] := by
  induction l with
  | nil => exact pure (List.nil_subset _)
  | cons x l ih => exact (h x).seq fun _ => ih

/-- The variables of the state have scalars at every round. -/
theorem foldlM {ι σ : Type} {f : σ → ι → Synth σ} {g : σ → ι → Wire σ} (held : σ → List Variable)
    (l : List ι) (h : ∀ a x, Tracks (held a ++ given) [] (f a x) (g a x) [] held) (a : σ) :
    Tracks (held a ++ given) [] (l.foldlM f a) (l.foldlM g a) [] held := by
  induction l generalizing a with
  | nil => exact pure (by simp)
  | cons x l ih =>
    refine (h a x).seq fun a' => (ih a').mono ?_
    intro v hv
    simp only [List.mem_cons, List.mem_append] at hv ⊢
    tauto

end Tracks

/-! ## The subrelations -/

open Tracks

theorem tracks_synthesizeOrder (batchInstrument : U64) (idx : ℕ) (order : Order) :
    Tracks [] [] (synthesizeOrder batchInstrument idx order) (wireOrder batchInstrument idx order) []
      fun _ => [] := by
  unfold synthesizeOrder wireOrder
  refine alloc fun idVar => alloc fun accVar => alloc fun instVar => alloc fun sideVar =>
    alloc fun priceVar => alloc fun qtyVar => alloc fun seqVar => push ?_
  refine (enforce (by simp)).seq fun _ => (enforceEqual (by simp)).seq fun _ =>
    (enforceEqual (by simp)).seq fun _ => ?_
  refine alloc fun invPriceVar => alloc fun invQtyVar => push ?_
  exact (enforce (by simp)).seq fun _ => (enforce (by simp)).seq fun _ => Tracks.pure (by simp)

theorem tracks_synthesizeOrdersFrom (batchInstrument : U64) (idx : ℕ) (orders : List Order) :
    Tracks [] [] (synthesizeOrdersFrom batchInstrument idx orders)
      (wireOrdersFrom batchInstrument idx orders) [] fun _ => [] := by
  induction orders generalizing idx with
  | nil => exact Tracks.pure (by simp)
  | cons order orders ih =>
    exact (tracks_synthesizeOrder batchInstrument idx order).seq fun allocated =>
      (ih (idx + 1)).seq fun rest => Tracks.pure (by simp)

section Accounting

variable {D : Type} [DecidableEq D] [CommitmentScheme D]

theorem tracks_merkleInclusion (rootPubVar : Variable) (expectedRoot leaf : D) (proof : MerkleProof D) :
    Tracks [rootPubVar] []
      (synthesizeMerkleInclusionConstraintWithRootVar rootPubVar expectedRoot leaf proof)
      (wireMerkleInclusion rootPubVar leaf proof) [] fun _ => [] := by
  unfold synthesizeMerkleInclusionConstraintWithRootVar wireMerkleInclusion
  refine check fun _ => alloc fun rootWitVar => push ?_
  exact enforceEqual (by simp)

/-- The count names no variable but the constant. -/
theorem tracks_synthesizeRecord (merkleTree : MerkleTree D) (allocation : BatchAllocation)
    (rootPubVar : Variable) (countLc : LinearCombination) (idx : ℕ)
    (record : OrderAccountingRecord D) (preimage : SaltedOrderPreimage) :
    Tracks (countLc.vars ++ [rootPubVar]) []
      (synthesizeRecord merkleTree allocation rootPubVar countLc idx record preimage)
      (wireRecord merkleTree rootPubVar countLc idx record preimage) [] (·.vars) := by
  unfold synthesizeRecord wireRecord
  refine alloc fun seqVar => push ((enforceEqual (by simp)).seq fun _ => ?_)
  cases hproof : merkleTree.generateProof idx with
  | none => exact Tracks.fail
  | some proof =>
    refine found rfl (Tracks.seq ((tracks_merkleInclusion rootPubVar merkleTree.root
      (commitOrder preimage) proof).mono (by simp)) fun _ => ?_)
    cases halloc : allocation.allocations.find? (·.orderId = record.orderId) with
    | none => exact Tracks.fail
    | some alloc => exact check fun _ => Tracks.pure (by simp [List.subset_def]; tauto)

theorem tracks_synthesizeRecordsFrom (merkleTree : MerkleTree D) (allocation : BatchAllocation)
    (rootPubVar : Variable) (idx : ℕ) (countLc : LinearCombination)
    (rest : List (OrderAccountingRecord D × SaltedOrderPreimage)) :
    Tracks (countLc.vars ++ [rootPubVar]) []
      (synthesizeRecordsFrom merkleTree allocation rootPubVar idx countLc rest)
      (wireRecordsFrom merkleTree rootPubVar idx countLc rest) [] (·.vars) := by
  induction rest generalizing idx countLc with
  | nil => exact Tracks.pure (by simp)
  | cons p rest ih =>
    obtain ⟨record, preimage⟩ := p
    refine (tracks_synthesizeRecord merkleTree allocation rootPubVar countLc idx record preimage).seq
      fun countLc' => (ih (idx + 1) countLc').mono ?_
    simp

theorem tracks_accounting (batch : Batch) (preimages : List SaltedOrderPreimage)
    (merkleTree : MerkleTree D) (accounting : CompleteInputAccounting D)
    (allocation : BatchAllocation) :
    Tracks [] []
      (synthesizeCompleteInputAccountingConstraints batch preimages merkleTree accounting allocation)
      (wireAccounting batch preimages merkleTree accounting)
      [toU64 batch.len, rootScalar merkleTree.root] fun _ => [] := by
  unfold synthesizeCompleteInputAccountingConstraints wireAccounting
  refine lift_bind fun _ _ => check fun _ => allocPublic fun batchLenVar => allocPublic
    fun rootPubVar => ?_
  refine Tracks.seq ((tracks_synthesizeRecordsFrom merkleTree allocation rootPubVar 0 zero
    (accounting.records.zip preimages)).mono (by simp)) fun countLc => ?_
  exact enforceEqual (by simp)

end Accounting

theorem tracks_synthesizeCandidate (orders : List Order) (volPubVar : Variable) (volRaw : U64)
    (price : Price) :
    Tracks [volPubVar] [] (synthesizeCandidate orders volPubVar volRaw price)
      (wireCandidate orders volPubVar volRaw price) [] fun _ => [] := by
  unfold synthesizeCandidate wireCandidate
  refine lift_bind fun demand hd => lift_bind fun supply hs => ?_
  rw [Result.orFail_eq_ok] at hd hs
  refine found (c := demand) (by rw [hd]; rfl) (found (c := supply) (by rw [hs]; rfl) ?_)
  refine alloc fun dVar => alloc fun sVar => alloc fun vVar => alloc fun slackVar => push ?_
  exact (enforceEqual (by simp)).seq fun _ => enforce (by simp)

theorem tracks_clearing [StdSort] (batch : Batch) (clearingPrice : Option Price)
    (clearedVolume : Qty) :
    Tracks [] [] (synthesizeClearingOptimalityConstraints batch clearingPrice clearedVolume)
      (wireClearing batch clearingPrice clearedVolume)
      [(clearingPrice.map (·.raw)).getD 0, clearedVolume.raw] fun _ => [] := by
  unfold synthesizeClearingOptimalityConstraints wireClearing
  refine lift_bind fun honest _ => check fun _ => check fun _ => allocPublic fun cpPubVar =>
    allocPublic fun volPubVar => ?_
  refine (Tracks.forM _ fun price => (tracks_synthesizeCandidate batch.orders volPubVar
    clearedVolume.raw price).mono (by simp)).seq fun _ => ?_
  refine alloc fun cpWitVar => alloc fun volWitVar => push ?_
  exact (enforceEqual (by simp)).seq fun _ => (enforceEqual (by simp)).seq fun _ =>
    observe fun cs => ProofComplexityMetrics.mk cs.constraints.length cs.numPublic cs.numWitness _

/-! ### Allocation and fills -/

/-- The variables of both totals. -/
def AllocationTotals.vars (totals : AllocationTotals) : List Variable :=
  totals.totalBuyLc.vars ++ totals.totalSellLc.vars

theorem tracks_synthesizeOrderAllocation (orders : List Order) (clearingPrice : Price)
    (totals : AllocationTotals) (orderAlloc : OrderAllocation) :
    Tracks totals.vars [] (synthesizeOrderAllocation orders clearingPrice totals orderAlloc)
      (wireOrderAllocation orders clearingPrice totals orderAlloc) [] (·.vars) := by
  unfold synthesizeOrderAllocation wireOrderAllocation
  cases horder : orders.find? (·.id = orderAlloc.orderId) with
  | none => exact Tracks.fail
  | some order =>
    refine found rfl (alloc fun allocQtyVar => alloc fun orderQtyVar => push ?_)
    have htotals : AllocationTotals.vars (if order.side = .buy
        then { totals with totalBuyLc := totals.totalBuyLc.addTerm allocQtyVar 1 }
        else { totals with totalSellLc := totals.totalSellLc.addTerm allocQtyVar 1 }) ⊆
        allocQtyVar :: totals.vars := by
      by_cases hside : order.side = .buy
      · simp [hside, AllocationTotals.vars, List.subset_def]
        tauto
      · simp [hside, AllocationTotals.vars, List.subset_def]
        tauto
    cases classifyOrder order clearingPrice with
    | outOfTheMoney =>
      refine (enforceEqual (by simp)).seq fun _ => Tracks.pure (List.Subset.trans htotals ?_)
      simp +contextual [List.subset_def]
    | inTheMoney =>
      refine alloc fun remVar => push ((enforceEqual (by simp)).seq fun _ =>
        Tracks.pure (List.Subset.trans htotals ?_))
      simp +contextual [List.subset_def]
    | atTheMoney =>
      refine alloc fun remVar => push ((enforceEqual (by simp)).seq fun _ =>
        Tracks.pure (List.Subset.trans htotals ?_))
      simp +contextual [List.subset_def]

theorem tracks_allocation [StdSort] (batch : Batch) (clearingPrice : Price) (clearedVolume : Qty)
    (allocation : BatchAllocation) :
    Tracks [] [] (synthesizeAllocationConstraints batch clearingPrice clearedVolume allocation)
      (wireAllocation batch clearingPrice clearedVolume allocation) [clearedVolume.raw]
      fun _ => [] := by
  unfold synthesizeAllocationConstraints wireAllocation
  refine lift_bind fun honest _ => check fun _ => allocPublic fun volPubVar => ?_
  refine (Tracks.foldlM AllocationTotals.vars allocation.allocations (fun totals orderAlloc =>
    (tracks_synthesizeOrderAllocation batch.orders clearingPrice totals orderAlloc).mono (by simp))
    ⟨zero, zero⟩).seq fun totals => ?_
  refine (enforceEqual ?_).seq fun _ => enforceEqual ?_
  all_goals
    simp [AllocationTotals.vars, List.subset_def]
    tauto

theorem tracks_synthesizeLimit (cpVar : Variable) (cpVal fillQtyVal : U64) (order : Order) :
    Tracks [cpVar] [] (synthesizeLimit cpVar cpVal fillQtyVal order) (wireLimit cpVar cpVal order) []
      fun _ => [] := by
  unfold synthesizeLimit wireLimit
  refine alloc fun limitVar => push ?_
  by_cases hside : order.side = .buy
  · rw [if_pos hside, if_pos hside]
    exact check fun _ => alloc fun slackVar => push (enforceEqual (by simp))
  · rw [if_neg hside, if_neg hside]
    exact check fun _ => alloc fun slackVar => push (enforceEqual (by simp))

theorem tracks_synthesizeFill (orders : List Order) (cpVar : Variable) (cpVal : U64) (fill : Fill) :
    Tracks [cpVar] [] (synthesizeFill orders cpVar cpVal fill) (wireFill orders cpVar cpVal fill) []
      fun _ => [] := by
  unfold synthesizeFill wireFill
  cases horder : orders.find? (·.id = fill.orderId) with
  | none => exact Tracks.fail
  | some order =>
    refine found rfl (check fun _ => alloc fun fillQtyVar => alloc fun orderQtyVar =>
      alloc fun remQtyVar => alloc fun considerationVar => push ?_)
    exact (enforceEqual (by simp)).seq fun _ => (enforce (by simp)).seq fun _ =>
      (tracks_synthesizeLimit cpVar cpVal fill.fillQty.raw order).mono (by simp)

theorem tracks_fillBounds (clearingPrice : Price) (orders : List Order) (fills : List Fill) :
    Tracks [] [] (synthesizeFillBoundsConstraints clearingPrice orders fills)
      (wireFillBounds clearingPrice orders fills) [] fun _ => [] := by
  unfold synthesizeFillBoundsConstraints wireFillBounds
  exact alloc fun cpVar => push (Tracks.forM fills fun fill =>
    tracks_synthesizeFill orders cpVar clearingPrice.raw fill)

/-! ### Conservation -/

/-- The variables of what an account is expected to hold. -/
def ExpectedPost.vars (expected : ExpectedPost) : List Variable :=
  expected.cashLc.vars ++ expected.invLc.vars

/-- The variables of the four totals. -/
def ConservationTotals.vars (totals : ConservationTotals) : List Variable :=
  totals.totalPreCashLc.vars ++ totals.totalPostCashLc.vars ++ totals.totalPreInvLc.vars ++
    totals.totalPostInvLc.vars

theorem tracks_synthesizeAccountFill (accId : AccountId) (expected : ExpectedPost) (fill : Fill) :
    Tracks expected.vars [] (synthesizeAccountFill accId expected fill)
      (wireAccountFill accId expected fill) [] (·.vars) := by
  unfold synthesizeAccountFill wireAccountFill
  by_cases hacc : fill.accountId ≠ accId
  · rw [if_pos hacc, if_pos hacc]
    exact Tracks.pure (List.subset_cons_self ..)
  · rw [if_neg hacc, if_neg hacc]
    refine alloc fun considerationVar => alloc fun fillQtyVar => push ?_
    by_cases hside : fill.side = .buy
    · rw [if_pos hside, if_pos hside]
      exact Tracks.pure (by simp [ExpectedPost.vars, List.subset_def]; tauto)
    · rw [if_neg hside, if_neg hside]
      exact Tracks.pure (by simp [ExpectedPost.vars, List.subset_def]; tauto)

theorem tracks_synthesizeAccount (postState : Ledger) (fills : List Fill) (instrument : InstrumentId)
    (totals : ConservationTotals) (e : AccountId × AccountState) :
    Tracks totals.vars [] (synthesizeAccount postState fills instrument totals e)
      (wireAccount postState fills instrument totals e) [] (·.vars) := by
  unfold synthesizeAccount wireAccount
  refine alloc fun preCashVar => alloc fun postCashVar => alloc fun preInvVar =>
    alloc fun postInvVar => push ?_
  have hfills : Tracks ([preCashVar] ++ [preInvVar] ++ []) [] _ _ [] ExpectedPost.vars :=
    Tracks.foldlM ExpectedPost.vars fills
      (fun expected fill => (tracks_synthesizeAccountFill e.1 expected fill).mono (by simp))
      ⟨fromVar preCashVar, fromVar preInvVar⟩
  refine (hfills.mono (by simp)).seq fun expected => ?_
  refine (enforceEqual ?_).seq fun _ => (enforceEqual ?_).seq fun _ => Tracks.pure ?_
  all_goals
    simp [ExpectedPost.vars, ConservationTotals.vars, List.subset_def]
    tauto

theorem tracks_conservation (preState postState : Ledger) (fills : List Fill)
    (instrument : InstrumentId) :
    Tracks [] [] (synthesizeConservationConstraints preState postState fills instrument)
      (wireConservation preState postState fills instrument) [] fun _ => [] := by
  unfold synthesizeConservationConstraints wireConservation
  refine (Tracks.foldlM ConservationTotals.vars preState.accounts.entries (fun totals e =>
    (tracks_synthesizeAccount postState fills instrument totals e).mono (by simp))
    ⟨zero, zero, zero, zero⟩).seq fun totals => ?_
  refine (enforceEqual ?_).seq fun _ => enforceEqual ?_
  all_goals
    simp [ConservationTotals.vars, List.subset_def]
    tauto

/-! ### Oracle freshness -/

theorem tracks_oracle (instrument : InstrumentId) (batchTimestampNanos : U64) (clearingPrice : Price)
    (policy : ReferencePricePolicy) (snap : ReferencePriceSnapshot) :
    Tracks [] []
      (synthesizeOracleFreshnessConstraints instrument batchTimestampNanos clearingPrice policy
        (some snap))
      (wireOracleFreshness batchTimestampNanos clearingPrice policy snap) [] fun _ => [] := by
  unfold synthesizeOracleFreshnessConstraints wireOracleFreshness
  refine lift_bind fun _ _ => alloc fun tBatchVar => alloc fun tOracleVar => alloc fun _ =>
    alloc fun _ => push ?_
  refine alloc fun ageVar => push ((enforceEqual (by simp)).seq fun _ => ?_)
  refine alloc fun freshSlackVar => push ((enforceEqual (by simp)).seq fun _ => ?_)
  exact alloc fun diffVar => push (alloc fun collarSlackVar => push (enforceEqual (by simp)))

/-! ## The whole constraint system -/

namespace SingleBatchProver

/-- The synthesis of the subrelations `ms`, whose scalars are concatenated, beside their wiring. -/
structure TracksAll (ms : List (Synth Unit)) (ws : List (Wire Unit)) (publics : List U64) : Prop where
  run : ∀ {t : Wiring} {cs' : ConstraintSystem} {scalars : List U64},
    synthesizeAll ms t.cs = .ok (cs', scalars) →
    ∃ t', wireAll ws t = some ((), t') ∧ t'.cs = cs' ∧ t'.witnesses = t.witnesses ++ scalars ∧
      t'.publics = t.publics ++ publics

theorem TracksAll.nil : TracksAll [] [] [] := by
  constructor
  intro t cs' scalars h
  obtain ⟨rfl, rfl⟩ := Prod.mk.inj (Except.ok.inj h)
  exact ⟨t, rfl, rfl, (List.append_nil _).symm, (List.append_nil _).symm⟩

/-- The scalars of a subrelation begin where those of the subrelations before it end. -/
theorem TracksAll.cons {m : Synth Unit} {w : Wire Unit} {ms : List (Synth Unit)}
    {ws : List (Wire Unit)} {publics publics' : List U64} {held : Unit → List Variable}
    (h : Tracks [] [] m w publics held) (h' : TracksAll ms ws publics') :
    TracksAll (m :: ms) (w :: ws) (publics ++ publics') := by
  constructor
  intro t cs' scalars hall
  obtain ⟨s, ⟨cs'', rest⟩, hm, hrest, he⟩ := synthesizeAll_cons.mp hall
  obtain ⟨rfl, rfl⟩ := Prod.mk.inj he
  have hstart : Follows t.witnesses [] ⟨t.cs, []⟩ t := ⟨rfl, by simp⟩
  obtain ⟨t₁, hw, hf, hext, -⟩ := h.run hstart Wiring.knows_nil hm
  rw [← hf.cs_eq] at hrest
  obtain ⟨t', hws, hcs, hwit, hpub⟩ := h'.run hrest
  refine ⟨t', ?_, hcs, ?_, ?_⟩
  · show (w t).bind (fun p => wireAll ws p.2) = _
    rw [hw]
    exact hws
  · rw [hwit, hf.witnesses_eq, List.append_nil, List.append_assoc]
  · rw [hpub, hext.publics_eq, List.append_assoc]

/-- A subrelation that is left out without a price. -/
theorem tracks_ofPrice {f : Price → Synth Unit} {g : Price → Wire Unit} {publics : List U64}
    (h : ∀ cp, Tracks [] [] (f cp) (g cp) publics fun _ => []) (price : Option Price) :
    Tracks [] []
      (match price with
        | some cp => f cp
        | none => pure ())
      (match price with
        | some cp => g cp
        | none => pure ()) (if price.isSome then publics else []) fun _ => [] := by
  cases price with
  | none => exact Tracks.pure (by simp)
  | some cp => exact h cp

/-- A subrelation that is left out without an oracle snapshot, a policy or a price. -/
theorem tracks_ofOracle
    {f : Price → ReferencePricePolicy → ReferencePriceSnapshot → Synth Unit}
    {g : Price → ReferencePricePolicy → ReferencePriceSnapshot → Wire Unit}
    (h : ∀ cp policy snapshot, Tracks [] [] (f cp policy snapshot) (g cp policy snapshot) []
      fun _ => [])
    (snapshot : Option ReferencePriceSnapshot) (policy : Option ReferencePricePolicy)
    (price : Option Price) :
    Tracks [] []
      (match snapshot, policy, price with
        | some snapshot, some policy, some cp => f cp policy snapshot
        | _, _, _ => pure ())
      (match snapshot, policy, price with
        | some snapshot, some policy, some cp => g cp policy snapshot
        | _, _, _ => pure ()) [] fun _ => [] := by
  rcases snapshot with _ | snapshot
  · exact Tracks.pure (by simp)
  rcases policy with _ | policy
  · exact Tracks.pure (by simp)
  rcases price with _ | cp
  · exact Tracks.pure (by simp)
  · exact h cp policy snapshot

section Batch

variable {D : Type} [DecidableEq D] [CommitmentScheme D] [StdSort]

omit [DecidableEq D] [CommitmentScheme D] [StdSort] in
/-- The scalar of the published price, with a price or without one. -/
theorem clearingPriceOf_raw (publicInputs : BatchProofPublicInputs D) :
    ((clearingPriceOf publicInputs).map (·.raw)).getD 0 = publicInputs.clearingPrice := by
  unfold clearingPriceOf
  by_cases h : publicInputs.clearingPrice > 0
  · rw [if_pos h]
    rfl
  · rw [if_neg h]
    exact (le_antisymm (not_lt.mp h) (Fin.zero_le _)).symm

/-- The public variables of a batch, without the last one if there is no price. -/
theorem tracksAll_subrelations (publicInputs : BatchProofPublicInputs D)
    (witness : BatchProofWitness D) (merkleTree : MerkleTree D)
    (accounting : CompleteInputAccounting D) :
    TracksAll (subrelations publicInputs witness merkleTree accounting)
      (wires publicInputs witness merkleTree accounting)
      ([toU64 witness.batch.len, rootScalar merkleTree.root, publicInputs.clearingPrice,
          publicInputs.clearedVolume] ++
        if (clearingPriceOf publicInputs).isSome then [publicInputs.clearedVolume] else []) := by
  have horders : Tracks [] []
      (do let _ ← synthesizeOrderValidityConstraints witness.batch.instrument.raw witness.batch.orders)
      (do let _ ← wireOrdersFrom witness.batch.instrument.raw 0 witness.batch.orders) []
      fun _ => [] :=
    (tracks_synthesizeOrdersFrom witness.batch.instrument.raw 0 witness.batch.orders).seq
      fun _ => Tracks.pure (by simp)
  have hclearing : Tracks [] []
      (do let _ ← synthesizeClearingOptimalityConstraints witness.batch
            (clearingPriceOf publicInputs) ⟨publicInputs.clearedVolume⟩)
      (do let _ ← wireClearing witness.batch (clearingPriceOf publicInputs)
            ⟨publicInputs.clearedVolume⟩)
      [publicInputs.clearingPrice, publicInputs.clearedVolume] fun _ => [] := by
    rw [← clearingPriceOf_raw publicInputs]
    exact (tracks_clearing witness.batch (clearingPriceOf publicInputs)
      ⟨publicInputs.clearedVolume⟩).bind fun _ => Tracks.pure (by simp)
  have hall := TracksAll.cons horders (TracksAll.cons
    (tracks_accounting witness.batch witness.preimages merkleTree accounting witness.allocation)
    (TracksAll.cons hclearing (TracksAll.cons
    (tracks_ofPrice (fun cp => tracks_allocation witness.batch cp ⟨publicInputs.clearedVolume⟩
      witness.allocation) (clearingPriceOf publicInputs)) (TracksAll.cons
    (tracks_ofPrice (fun cp => tracks_fillBounds cp witness.batch.orders witness.fills)
      (clearingPriceOf publicInputs)) (TracksAll.cons
    (tracks_conservation witness.preState witness.postState witness.fills witness.batch.instrument)
    (TracksAll.cons
    (tracks_ofOracle (tracks_oracle witness.batch.instrument witness.batchCutoffNanos)
      witness.oracleSnapshot witness.oraclePolicy (clearingPriceOf publicInputs)) .nil))))))
  have hpublics : (if (clearingPriceOf publicInputs).isSome then ([] : List U64) else []) = [] :=
    ite_self _
  rw [hpublics] at hall
  simp only [List.append_nil, List.nil_append] at hall
  exact hall

/-! ## A proof -/

/-- The run of `prove` that comes to the satisfaction check, with the constraint system and the
witness vector it is made on. -/
structure ReachesCheck (publicInputs : BatchProofPublicInputs D) (witness : BatchProofWitness D)
    (leaves : List D) (accounting : CompleteInputAccounting D) (cs : ConstraintSystem)
    (fullWitness : List U64) : Prop where
  leaves_eq : bindLeaves witness = .ok leaves
  header_eq : headerHash witness.batch witness.batchCutoffNanos (MerkleTree.new leaves).root =
    publicInputs.batchHeaderHash
  accounting_eq : bindAccounting witness leaves = .ok accounting
  plaintext : checkPlaintext publicInputs witness (.new leaves) accounting = .ok ()
  synthesis : synthesizeAll (subrelations publicInputs witness (.new leaves) accounting) .new =
    .ok (cs, fullWitness)

/-- Only the satisfaction check is left. -/
theorem ReachesCheck.prove_eq {publicInputs : BatchProofPublicInputs D} {witness : BatchProofWitness D}
    {leaves : List D} {accounting : CompleteInputAccounting D} {cs : ConstraintSystem}
    {fullWitness : List U64}
    (h : ReachesCheck publicInputs witness leaves accounting cs fullWitness) :
    prove publicInputs witness = (do
      (cs.isSatisfied (publicScalars publicInputs witness (.new leaves)) fullWitness).orFail
        fun e => "R1CSUnsatisfied: " ++ e.message
      pure { proofVersion := 1, publicInputs, proofBytes := certificate cs.constraints.length 5 }) := by
  unfold prove proveBound
  rw [h.leaves_eq]
  show (if headerHash witness.batch witness.batchCutoffNanos (MerkleTree.new leaves).root ≠
    publicInputs.batchHeaderHash then _ else _) = _
  rw [if_neg (not_not.mpr h.header_eq), h.accounting_eq]
  show (checkPlaintext publicInputs witness (.new leaves) accounting >>= _) = _
  rw [h.plaintext]
  show (synthesizeAll (subrelations publicInputs witness (.new leaves) accounting) .new >>= _) = _
  rw [h.synthesis]
  rfl

/-- **Alignment.** Whenever `prove` comes to the satisfaction check, the witness vector holds, at the
index of every witness variable, the scalar that variable stands for, and every variable of a
constraint evaluates to its scalar. The public variables stand for the batch length, the root, the
clearing price, and the cleared volume, the last one only with a price. -/
theorem prove_aligned {publicInputs : BatchProofPublicInputs D} {witness : BatchProofWitness D}
    {leaves : List D} {accounting : CompleteInputAccounting D} {cs : ConstraintSystem}
    {fullWitness : List U64}
    (h : ReachesCheck publicInputs witness leaves accounting cs fullWitness) :
    cs.numWitness = fullWitness.length ∧
    ∃ w, wireAll (wires publicInputs witness (.new leaves) accounting) .new = some ((), w) ∧
      w.cs = cs ∧
      (∀ i < cs.numWitness, ∃ value, fullWitness[i]? = some value ∧
        w.scalarOf (.witnessVar i) = some value) ∧
      w.publics <+: [toU64 witness.batch.len, rootScalar (MerkleTree.new leaves).root,
        publicInputs.clearingPrice, publicInputs.clearedVolume, publicInputs.clearedVolume] ∧
      ∀ c ∈ cs.constraints, ∀ v ∈ c.vars, ∃ value, w.scalarOf v = some value ∧
        v.value (publicScalars publicInputs witness (.new leaves)) fullWitness = toScalar value := by
  obtain ⟨w, hrun, hcs, hwit, hpub⟩ :=
    (tracksAll_subrelations publicInputs witness (.new leaves) accounting).run
      (t := .new) h.synthesis
  have hwit' : w.witnesses = fullWitness := hwit
  have hprefix : w.publics <+: publicScalars publicInputs witness (.new leaves) := by
    rw [hpub]
    by_cases hprice : (clearingPriceOf publicInputs).isSome
    · rw [if_pos hprice]
      exact List.prefix_rfl
    · rw [if_neg hprice]
      exact ⟨[publicInputs.clearedVolume], rfl⟩
  have hlen : cs.numWitness = fullWitness.length := by
    rw [← hcs, ← w.length_witnesses, hwit']
  refine ⟨hlen, w, hrun, hcs, ?_, hprefix, ?_⟩
  · intro i hi
    rw [hlen] at hi
    have hget := List.getElem?_eq_getElem hi
    refine ⟨fullWitness[i], hget, ?_⟩
    show w.witnesses[i]? = _
    rw [hwit', hget]
  · intro c hc v hv
    rw [← hcs] at hc
    obtain ⟨value, hvalue⟩ := Option.isSome_iff_exists.mp (w.allAssigned c hc v hv)
    refine ⟨value, hvalue, ?_⟩
    cases v with
    | one =>
      obtain rfl := Option.some.inj hvalue
      rfl
    | publicVar i =>
      -- the public vector extends the scalars of the public variables
      obtain ⟨rest, hrest⟩ := hprefix
      obtain ⟨hi, -⟩ := List.getElem?_eq_some_iff.mp hvalue
      show (((publicScalars publicInputs witness (.new leaves))[i]?).map toScalar).getD 0 = _
      rw [← hrest, List.getElem?_append_left hi]
      show ((Variable.scalar w.publics w.witnesses (.publicVar i)).map toScalar).getD 0 = _
      rw [hvalue]
      rfl
    | witnessVar i =>
      show ((fullWitness[i]?).map toScalar).getD 0 = _
      rw [← hwit']
      show ((Variable.scalar w.publics w.witnesses (.witnessVar i)).map toScalar).getD 0 = _
      rw [hvalue]
      rfl

end Batch

end SingleBatchProver

/-- The example batch trades: all subrelations but the oracle's are there. -/
theorem prove_aligned_example : ∃ leaves accounting cs fullWitness,
    @SingleBatchProver.ReachesCheck Commitment _ _ .stable
      (Cli.publicInputs exampleLedger exampleBatch (Cli.derivePreimages exampleBatch 0) 1700000000
        exampleResult)
      (Cli.witness exampleLedger exampleBatch (Cli.derivePreimages exampleBatch 0) 1700000000
        exampleResult) leaves accounting cs fullWitness ∧
    cs.numWitness = fullWitness.length ∧
    ∃ w : Wiring, w.cs = cs ∧ ∀ c ∈ cs.constraints, ∀ v ∈ c.vars, ∃ value,
      w.scalarOf v = some value ∧
      v.value (SingleBatchProver.publicScalars
        (Cli.publicInputs exampleLedger exampleBatch (Cli.derivePreimages exampleBatch 0) 1700000000
          exampleResult)
        (Cli.witness exampleLedger exampleBatch (Cli.derivePreimages exampleBatch 0) 1700000000
          exampleResult) (.new leaves)) fullWitness = toScalar value := by
  have hcreate : @Batch.create .stable ⟨1⟩ ⟨7⟩ exampleBatch.orders = .ok exampleBatch := by
    decide +kernel
  obtain ⟨proof, hproof⟩ : ∃ proof, @SingleBatchProver.prove Commitment _ _ .stable
      (Cli.publicInputs exampleLedger exampleBatch (Cli.derivePreimages exampleBatch 0) 1700000000
        exampleResult)
      (Cli.witness exampleLedger exampleBatch (Cli.derivePreimages exampleBatch 0) 1700000000
        exampleResult) = .ok proof :=
    (@SingleBatchProver.prove_cli_iff Commitment _ _ .stable exampleLedger exampleBatch
      (@Batch.accepted_of_create .stable _ _ _ _ hcreate) (by decide)
      (seq_of_positions (by decide)) exampleResult (by decide +kernel) (by decide +kernel) _ _).mpr
      exampleResult_fitsCircuit
  obtain ⟨leaves, accounting, cs, fullWitness, hleaves, hheader, haccounting, hplain, hsynth, -⟩ :=
    (@SingleBatchProver.prove_eq_ok Commitment _ _ .stable _ _ _).mp hproof
  rw [← @SingleBatchProver.checkPlaintext_eq_ok Commitment _ _ .stable] at hplain
  have hreaches := @SingleBatchProver.ReachesCheck.mk Commitment _ _ .stable _ _ _ _ _ _ hleaves
    hheader haccounting hplain hsynth
  obtain ⟨hlen, w, -, hcs, -, -, hvalues⟩ :=
    @SingleBatchProver.prove_aligned Commitment _ _ .stable _ _ _ _ _ _ hreaches
  exact ⟨leaves, accounting, cs, fullWitness, hreaches, hlen, w, hcs, hvalues⟩

end FairCross
