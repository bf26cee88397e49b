import FairCross.Library.JsonTree
import FairCross.Util.JsonWriter

/-!
# What the writer writes

A method writes a fixed text, behind a comma if one is due. No document and no field ends in an opening
bracket or a colon, so that a comma stands exactly between siblings.
-/

namespace FairCross

open JsonTree

/-! ## The ends of texts -/

/-- A text behind which a comma is due. -/
def Closes (t : List Char) : Prop := ∃ s c, t = s ++ [c] ∧ c ≠ '{' ∧ c ≠ '[' ∧ c ≠ ':'

theorem Closes.append_left {t : List Char} (h : Closes t) (s : List Char) : Closes (s ++ t) := by
  obtain ⟨s', c, rfl, hc⟩ := h
  exact ⟨s ++ s', c, by rw [List.append_assoc], hc⟩

theorem closes_text (j : JsonTree) : Closes j.text := by
  obtain ⟨t, c, h, hc⟩ := j.text_concat
  refine ⟨t, c, h, ?_⟩
  rcases hc with hc | hc
  · simp only [List.mem_cons, List.not_mem_nil, or_false] at hc
    rcases hc with rfl | rfl | rfl | rfl <;> decide
  · refine ⟨?_, ?_, ?_⟩ <;>
      · rintro rfl
        exact absurd hc (by decide)

namespace Writer

theorem separator_fresh (b : List Char) : separator ⟨b, true⟩ = [] := by
  unfold separator
  cases b.getLast? <;> rfl

theorem separator_closes (b : List Char) {t : List Char} (h : Closes t) :
    separator ⟨b ++ t, false⟩ = [','] := by
  obtain ⟨s, c, rfl, h1, h2, h3⟩ := h
  unfold separator
  rw [← List.append_assoc, List.getLast?_concat]
  simp [h1, h2, h3]

end Writer

/-! ## Methods -/

namespace Write

/-- The method writes the text `t`. -/
structure Writes (m : Write) (t : List Char) : Prop where
  closes : Closes t
  run : ∀ w, m w = ((), ⟨w.buffer ++ w.separator ++ t, false⟩)

/-- The method writes the texts `parts` one after another. -/
structure WritesAll (m : Write) (parts : List (List Char)) : Prop where
  closes : ∀ p ∈ parts, Closes p
  run : ∀ w, m w = ((), if parts = [] then w else ⟨w.buffer ++ w.separator ++ commas parts, false⟩)

variable {m m' : Write} {t : List Char} {parts parts' : List (List Char)}

theorem bind_run {w w' : Writer} (h : m w = ((), w')) : (m >>= fun _ => m') w = m' w' := by
  show (m w >>= fun p => m' p.2 : Id _) = _
  rw [h]
  rfl

theorem WritesAll.last (h : Writes m t) : WritesAll m [t] := by
  refine ⟨fun p hp => ?_, fun w => ?_⟩
  · rw [List.mem_singleton.mp hp]
    exact h.closes
  · rw [h.run, if_neg (by simp), commas_singleton]

/-- A comma separates what is written first from what is written next. -/
theorem WritesAll.cons (h : Writes m t) (h' : WritesAll m' parts) :
    WritesAll (m >>= fun _ => m') (t :: parts) := by
  refine ⟨fun p hp => ?_, fun w => ?_⟩
  · rcases List.mem_cons.mp hp with rfl | hp
    · exact h.closes
    · exact h'.closes p hp
  · rw [bind_run (h.run w), h'.run, if_neg (List.cons_ne_nil t parts)]
    cases parts with
    | nil => rw [if_pos rfl, commas_singleton]
    | cons p parts =>
      rw [if_neg (List.cons_ne_nil p parts), Writer.separator_closes _ h.closes, commas_cons_cons]
      simp

theorem WritesAll.forM {ι : Type} {f : ι → Write} {g : ι → List Char} (l : List ι)
    (h : ∀ x, Writes (f x) (g x)) : WritesAll (l.forM f) (l.map g) := by
  induction l with
  | nil => exact ⟨fun p hp => absurd hp List.not_mem_nil, fun w => rfl⟩
  | cons x l ih => exact WritesAll.cons (h x) ih

/-! ## Values and fields -/

theorem escape_eq (s : String) : escape s = s.toList.flatMap escapeChar := by
  have hfold : ∀ (l : List Char) (out : List Char),
      l.foldl (fun out c => out ++ escapeChar c) out = out ++ l.flatMap escapeChar := by
    intro l
    induction l with
    | nil => simp
    | cons c l ih =>
      intro out
      rw [List.foldl_cons, ih, List.flatMap_cons, List.append_assoc]
  exact hfold s.toList []

theorem digits_reverse {n : ℕ} (h : 0 < n) : (digits n).reverse = Nat.toDigits 10 n := by
  induction n using Nat.strong_induction_on with
  | _ n ih =>
    rw [digits, if_pos h, List.reverse_cons]
    by_cases hn : n < 10
    · have hzero : digits (n / 10) = [] := by rw [digits, if_neg (by omega)]
      rw [hzero, Nat.mod_eq_of_lt hn, Nat.toDigits_of_lt_base hn]
      rfl
    · rw [ih (n / 10) (by omega) (by omega)]
      exact (Nat.toDigits_of_base_le (by decide) (by omega)).symm

/-- A value is written behind its separator. -/
theorem writes_append (h : Closes t) :
    Writes (do
      punctuate
      append t false) t :=
  ⟨h, fun _ => rfl⟩

theorem writes_valueU64 (v : U64) : Writes (valueU64 v) (text (.num v)) := by
  have htext : (toString (v : ℕ)).toList = text (.num v) := Nat.toList_repr
  unfold valueU64
  rw [htext]
  exact writes_append (closes_text _)

theorem writes_valueU128 (v : U128) : Writes (valueU128 v) (text (.num v)) := by
  have htext : valueU128 v = (do
      punctuate
      append (text (.num v)) false) := by
    unfold valueU128
    by_cases hv : v = 0
    · rw [if_pos hv, hv]
      rfl
    · rw [if_neg hv, digits_reverse (Nat.pos_of_ne_zero fun h => hv (Fin.ext h))]
      rfl
  rw [htext]
  exact writes_append (closes_text _)

theorem writes_valueNull : Writes valueNull (text .null) := writes_append (closes_text .null)

theorem writes_valueString (s : String) : Writes (valueString s) (text (.str s)) := by
  unfold valueString
  rw [escape_eq]
  exact writes_append (closes_text (.str s))

/-- The text of a field. -/
def fieldText (f : String × JsonTree) : List Char := quote f.1 ++ ':' :: text f.2

/-- No comma stands between a key and its value. -/
theorem writes_field (k : String) {j : JsonTree} (h : Writes m j.text) :
    Writes (key k >>= fun _ => m) (fieldText (k, j)) := by
  refine ⟨?_, fun w => ?_⟩
  · have := (closes_text j).append_left (quote k ++ [':'])
    rwa [List.append_assoc] at this
  · have hkey : key k w = ((), ⟨w.buffer ++ w.separator ++ (quote k ++ [':']), true⟩) := by
      unfold key
      rw [escape_eq]
      show ((), Writer.mk (w.buffer ++ w.separator ++ ('"' :: k.toList.flatMap escapeChar ++
        ['"', ':'])) true) = _
      simp [quote]
    rw [bind_run hkey, h.run, Writer.separator_fresh]
    simp [fieldText]

/-- A field whose value is written by several methods of its own. -/
theorem WritesAll.field (k : String) {j : JsonTree} (h : Writes m j.text) (h' : WritesAll m' parts) :
    WritesAll (key k >>= fun _ => m >>= fun _ => m') (fieldText (k, j) :: parts) := by
  show WritesAll ((key k >>= fun _ => m) >>= fun _ => m') _
  exact WritesAll.cons (writes_field k h) h'

theorem writes_object {fields : List (String × JsonTree)} (h : WritesAll m (fields.map fieldText)) :
    Writes (object m) (text (.obj fields)) := by
  have htext : text (.obj fields) = '{' :: commas (fields.map fieldText) ++ ['}'] := by
    rw [text, fieldTexts_eq]
    rfl
  refine ⟨closes_text _, fun w => ?_⟩
  have hbegin : beginObject w = ((), ⟨w.buffer ++ w.separator ++ ['{'], true⟩) := rfl
  unfold object
  rw [bind_run hbegin, bind_run (h.run _), htext, Writer.separator_fresh]
  cases fields with
  | nil =>
    show ((), Writer.mk (w.buffer ++ w.separator ++ ['{'] ++ ['}']) false) = _
    simp
  | cons f fields =>
    rw [if_neg (by simp)]
    show ((), Writer.mk (w.buffer ++ w.separator ++ ['{'] ++ [] ++ _ ++ ['}']) false) = _
    simp

theorem writes_array {items : List JsonTree} (h : WritesAll m (items.map text)) :
    Writes (array m) (text (.arr items)) := by
  have htext : text (.arr items) = '[' :: commas (items.map text) ++ [']'] := by
    rw [text, itemTexts_eq]
  refine ⟨closes_text _, fun w => ?_⟩
  have hbegin : beginArray w = ((), ⟨w.buffer ++ w.separator ++ ['['], true⟩) := rfl
  unfold array
  rw [bind_run hbegin, bind_run (h.run _), htext, Writer.separator_fresh]
  cases items with
  | nil =>
    show ((), Writer.mk (w.buffer ++ w.separator ++ ['['] ++ [']']) false) = _
    simp
  | cons j items =>
    rw [if_neg (by simp)]
    show ((), Writer.mk (w.buffer ++ w.separator ++ ['['] ++ [] ++ _ ++ [']']) false) = _
    simp

theorem writes_fieldOptionalU64 (k : String) (v : Option U64) :
    Writes (fieldOptionalU64 k v) (fieldText (k, v.elim .null fun v => .num v)) := by
  cases v with
  | none => exact writes_field k writes_valueNull
  | some v => exact writes_field k (writes_valueU64 v)

end Write

end FairCross
