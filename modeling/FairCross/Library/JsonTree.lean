import Mathlib

/-!
# JSON documents

A document of natural numbers, strings, arrays and objects, and its compact text: no spaces, the
members of an array or object separated by commas. `JsonTree.induction` is induction over the members
at any depth.
-/

/-- A document. The fields of an object have an order. -/
inductive JsonTree where
  | null
  | num (n : ℕ)
  | str (s : String)
  | arr (items : List JsonTree)
  | obj (fields : List (String × JsonTree))

namespace JsonTree

/-- A property of all documents, from the members of an array or object to the whole. -/
@[elab_as_elim]
theorem induction {motive : JsonTree → Prop} (null : motive .null) (num : ∀ n, motive (.num n))
    (str : ∀ s, motive (.str s)) (arr : ∀ items, (∀ j ∈ items, motive j) → motive (.arr items))
    (obj : ∀ fields, (∀ f ∈ fields, motive f.2) → motive (.obj fields)) (j : JsonTree) :
    motive j :=
  match j with
  | .null => null
  | .num n => num n
  | .str s => str s
  | .arr items => arr items fun j _ => induction null num str arr obj j
  | .obj fields => obj fields fun f hf =>
    have : sizeOf f.2 < 1 + sizeOf fields := by
      have h1 := List.sizeOf_lt_of_mem hf
      have h2 : sizeOf f = 1 + sizeOf f.1 + sizeOf f.2 := by cases f; rfl
      omega
    induction null num str arr obj f.2
termination_by sizeOf j

/-! ## Text -/

/-- The escape of a character inside a string. -/
def escapeChar : Char → List Char
  | '"' => ['\\', '"']
  | '\\' => ['\\', '\\']
  | '\n' => ['\\', 'n']
  | '\t' => ['\\', 't']
  | '\r' => ['\\', 'r']
  | c => [c]

def quote (s : String) : List Char := '"' :: s.toList.flatMap escapeChar ++ ['"']

/-- The parts with commas between them. -/
def commas (parts : List (List Char)) : List Char := [','].intercalate parts

mutual

def text : JsonTree → List Char
  | .null => ['n', 'u', 'l', 'l']
  | .num n => Nat.toDigits 10 n
  | .str s => quote s
  | .arr items => '[' :: commas (itemTexts items) ++ [']']
  | .obj fields => '{' :: commas (fieldTexts fields) ++ ['}']

def itemTexts : List JsonTree → List (List Char)
  | [] => []
  | j :: items => text j :: itemTexts items

def fieldTexts : List (String × JsonTree) → List (List Char)
  | [] => []
  | f :: fields => (quote f.1 ++ ':' :: text f.2) :: fieldTexts fields

end

@[simp] theorem itemTexts_eq (items : List JsonTree) : itemTexts items = items.map text := by
  induction items with
  | nil => rfl
  | cons j items ih => rw [itemTexts, ih, List.map_cons]

@[simp] theorem fieldTexts_eq (fields : List (String × JsonTree)) :
    fieldTexts fields = fields.map fun f => quote f.1 ++ ':' :: text f.2 := by
  induction fields with
  | nil => rfl
  | cons f fields ih => rw [fieldTexts, ih, List.map_cons]

@[simp] theorem commas_nil : commas [] = [] := rfl

@[simp] theorem commas_singleton (part : List Char) : commas [part] = part := by
  simp [commas]

@[simp] theorem commas_cons_cons (part part' : List Char) (parts : List (List Char)) :
    commas (part :: part' :: parts) = part ++ ',' :: commas (part' :: parts) := by
  simp [commas, List.intercalate_cons_cons]

theorem digits_cons (n : ℕ) : ∃ c t, Nat.toDigits 10 n = c :: t ∧ c.isDigit = true := by
  cases h : Nat.toDigits 10 n with
  | nil => exact absurd h Nat.toDigits_ne_nil
  | cons c t => exact ⟨c, t, rfl, Nat.isDigit_of_mem_toDigits (by decide) le_rfl (by rw [h]; simp)⟩

theorem digits_concat (n : ℕ) : ∃ t c, Nat.toDigits 10 n = t ++ [c] ∧ c.isDigit = true := by
  rcases List.eq_nil_or_concat' (Nat.toDigits 10 n) with h | ⟨t, c, h⟩
  · exact absurd h Nat.toDigits_ne_nil
  · exact ⟨t, c, h, Nat.isDigit_of_mem_toDigits (by decide) le_rfl (by rw [h]; simp)⟩

/-- How a document can begin. -/
theorem text_cons (j : JsonTree) :
    ∃ c t, j.text = c :: t ∧ (c ∈ ['n', '"', '[', '{'] ∨ c.isDigit = true) := by
  cases j with
  | null => exact ⟨_, _, rfl, by simp⟩
  | num n =>
    obtain ⟨c, t, h, hc⟩ := digits_cons n
    exact ⟨c, t, h, Or.inr hc⟩
  | str s => exact ⟨_, _, rfl, by simp⟩
  | arr items => exact ⟨_, _, rfl, by simp⟩
  | obj fields => exact ⟨_, _, rfl, by simp⟩

/-- How a document can end. -/
theorem text_concat (j : JsonTree) :
    ∃ t c, j.text = t ++ [c] ∧ (c ∈ ['l', '"', ']', '}'] ∨ c.isDigit = true) := by
  cases j with
  | null => exact ⟨['n', 'u', 'l'], 'l', rfl, by simp⟩
  | num n =>
    obtain ⟨t, c, h, hc⟩ := digits_concat n
    exact ⟨t, c, h, Or.inr hc⟩
  | str s => exact ⟨_, _, rfl, by simp⟩
  | arr items => exact ⟨_, _, rfl, by simp⟩
  | obj fields => exact ⟨_, _, rfl, by simp⟩

/-! ## Properties of all members -/

/-- All numbers of the document satisfy `p`. -/
def AllNumbers (p : ℕ → Prop) : JsonTree → Prop
  | .null => True
  | .num n => p n
  | .str _ => True
  | .arr items => ∀ j ∈ items, AllNumbers p j
  | .obj fields => ∀ f ∈ fields, AllNumbers p f.2
decreasing_by
  · have := List.sizeOf_lt_of_mem ‹j ∈ items›
    simp
    omega
  · have := List.sizeOf_lt_of_mem ‹f ∈ fields›
    cases f
    simp at *
    omega

/-- No object of the document has two fields under one key. -/
def DistinctKeys : JsonTree → Prop
  | .null => True
  | .num _ => True
  | .str _ => True
  | .arr items => ∀ j ∈ items, DistinctKeys j
  | .obj fields => (fields.map (·.1)).Nodup ∧ ∀ f ∈ fields, DistinctKeys f.2
decreasing_by
  · have := List.sizeOf_lt_of_mem ‹j ∈ items›
    simp
    omega
  · have := List.sizeOf_lt_of_mem ‹f ∈ fields›
    cases f
    simp at *
    omega

section Members

variable {ι : Type} {p : ℕ → Prop} {f : String × JsonTree} {fields : List (String × JsonTree)}

@[simp] theorem allNumbers_null : null.AllNumbers p := by
  rw [AllNumbers]
  trivial

@[simp] theorem allNumbers_num {n : ℕ} : (num n).AllNumbers p ↔ p n := by rw [AllNumbers]

@[simp] theorem allNumbers_str {s : String} : (str s).AllNumbers p := by
  rw [AllNumbers]
  trivial

@[simp] theorem allNumbers_arr_map {l : List ι} {g : ι → JsonTree} :
    (arr (l.map g)).AllNumbers p ↔ ∀ x ∈ l, (g x).AllNumbers p := by
  rw [AllNumbers, List.forall_mem_map]

@[simp] theorem allNumbers_obj_nil : (obj []).AllNumbers p := by
  rw [AllNumbers]
  simp

@[simp] theorem allNumbers_obj_cons :
    (obj (f :: fields)).AllNumbers p ↔ f.2.AllNumbers p ∧ (obj fields).AllNumbers p := by
  rw [AllNumbers, AllNumbers, List.forall_mem_cons]

@[simp] theorem allNumbers_obj_map {l : List ι} {g : ι → String × JsonTree} :
    (obj (l.map g)).AllNumbers p ↔ ∀ x ∈ l, (g x).2.AllNumbers p := by
  rw [AllNumbers, List.forall_mem_map]

@[simp] theorem distinctKeys_null : null.DistinctKeys := by
  rw [DistinctKeys]
  trivial

@[simp] theorem distinctKeys_num {n : ℕ} : (num n).DistinctKeys := by
  rw [DistinctKeys]
  trivial

@[simp] theorem distinctKeys_str {s : String} : (str s).DistinctKeys := by
  rw [DistinctKeys]
  trivial

@[simp] theorem distinctKeys_arr_map {l : List ι} {g : ι → JsonTree} :
    (arr (l.map g)).DistinctKeys ↔ ∀ x ∈ l, (g x).DistinctKeys := by
  rw [DistinctKeys, List.forall_mem_map]

theorem distinctKeys_obj :
    (obj fields).DistinctKeys ↔ (fields.map (·.1)).Nodup ∧ ∀ f ∈ fields, f.2.DistinctKeys := by
  rw [DistinctKeys]

end Members

end JsonTree
