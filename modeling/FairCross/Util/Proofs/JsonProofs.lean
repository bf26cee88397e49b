import FairCross.Library.JsonTree
import FairCross.Util.Json

/-!
# What the reader reads

The text of a document is read as the document if its numbers are below 2^63; the first number that is
not makes `std::stoll` throw. `Parses` says both at once of every method of the parser.
-/

namespace FairCross.Json

open JsonTree

/-! ## The value of a document -/

mutual

/-- The value a document is read as. -/
def ofTree : JsonTree → Value
  | .null => .null
  | .num n => .int n
  | .str s => .string s
  | .arr items => .array (ofItems items)
  | .obj fields => .object (ofFields [] fields)

def ofItems : List JsonTree → List Value
  | [] => []
  | j :: items => ofTree j :: ofItems items

/-- The fields are put into a map one after another. -/
def ofFields (o : List (String × Value)) : List (String × JsonTree) → List (String × Value)
  | [] => o
  | f :: fields => ofFields (emplace f.1 (ofTree f.2) o) fields

end

/-- The numbers `std::stoll` can read. -/
abbrev FitsLongLong (j : JsonTree) : Prop := j.AllNumbers (· < 2 ^ 63)

/-- How the text behind a value can begin. -/
def Stops (rest : List Char) : Prop := ∀ c t, rest = c :: t → c ∈ [',', ']', '}']

/-- No digit, no point and no exponent follows a value. -/
theorem Stops.head {rest : List Char} (h : Stops rest) {c : Char}
    (hc : c.isDigit = true ∨ c ∈ ['.', 'e', 'E']) :
    rest.head? ≠ some c := by
  cases rest with
  | nil => simp
  | cons c' t =>
    intro hhead
    obtain rfl := Option.some.inj hhead
    have hmem := h _ _ rfl
    simp only [List.mem_cons, List.not_mem_nil, or_false] at hmem hc
    rcases hmem with rfl | rfl | rfl <;> revert hc <;> decide

namespace Parser

/-! ## The calculus -/

/-- In front of `rest`, the method reads the text `t` as `a` if its numbers fit, and only then. -/
structure Parses {α : Type} (p : Parser α) (t rest : List Char) (fits : Prop) (a : α) : Prop where
  accepts : fits → ∀ pos, p ⟨pos, t ++ rest⟩ = some (.ok (a, ⟨pos + t.length, rest⟩))
  overflows : ¬ fits → ∀ pos, p ⟨pos, t ++ rest⟩ = some (.error .outOfRange)

variable {α β : Type} {p : Parser α} {f : α → Parser β} {t t' rest : List Char} {fits fits' : Prop}
  {a : α} {b : β}

theorem bind_ok {c c' : Cursor} (h : p c = some (.ok (a, c'))) : (p >>= f) c = f a c' := by
  show ExceptT.bind (p c) (fun r => f r.1 r.2) = _
  rw [h]
  rfl

theorem bind_error {c : Cursor} {e : Exception} (h : p c = some (.error e)) :
    (p >>= f) c = some (.error e) := by
  show ExceptT.bind (p c) (fun r => f r.1 r.2) = _
  rw [h]
  rfl

namespace Parses

theorem pure : Parses (Pure.pure a) [] rest True a :=
  ⟨fun _ _ => rfl, fun h => absurd trivial h⟩

theorem mono (h : Parses p t rest fits a) (hfits : fits ↔ fits') : Parses p t rest fits' a :=
  ⟨fun h' => h.accepts (hfits.mpr h'), fun h' => h.overflows fun hf => h' (hfits.mp hf)⟩

theorem bind (h : Parses p t (t' ++ rest) fits a) (h' : Parses (f a) t' rest fits' b) :
    Parses (p >>= f) (t ++ t') rest (fits ∧ fits') b := by
  constructor
  · rintro ⟨hfits, hfits'⟩ pos
    rw [List.append_assoc, bind_ok (h.accepts hfits pos), h'.accepts hfits', List.length_append,
      Nat.add_assoc]
  · intro hnot pos
    rw [List.append_assoc]
    by_cases hfits : fits
    · rw [bind_ok (h.accepts hfits pos)]
      exact h'.overflows (fun hfits' => hnot ⟨hfits, hfits'⟩) _
    · exact bind_error (h.overflows hfits pos)

/-- A part without numbers. -/
theorem seq (h : Parses p t (t' ++ rest) True a) (h' : Parses (f a) t' rest fits b) :
    Parses (p >>= f) (t ++ t') rest fits b :=
  (h.bind h').mono (by rw [true_and])

/-- A part that reads nothing. -/
theorem look (h : ∀ pos, p ⟨pos, t ++ rest⟩ = some (.ok (a, ⟨pos, t ++ rest⟩)))
    (h' : Parses (f a) t rest fits b) : Parses (p >>= f) t rest fits b :=
  ⟨fun hfits pos => by rw [bind_ok (h pos), h'.accepts hfits],
    fun hfits pos => by rw [bind_ok (h pos), h'.overflows hfits]⟩

theorem skip {c : Char} {f : Unit → Parser β} (hc : isSpace c = false)
    (h : Parses (f ()) (c :: t) rest fits b) :
    Parses (skipWhitespace >>= f) (c :: t) rest fits b := by
  refine look (fun pos => ?_) h
  have hnone : ((c :: t ++ rest).takeWhile isSpace).length = 0 := by
    rw [List.cons_append, List.takeWhile_cons_of_neg (by simp [hc])]
    rfl
  show some (Except.ok ((), Cursor.mk (pos + ((c :: t ++ rest).takeWhile isSpace).length)
    ((c :: t ++ rest).drop ((c :: t ++ rest).takeWhile isSpace).length))) = _
  rw [hnone]
  rfl

theorem peek {c : Char} {f : Char → Parser β} (h : Parses (f c) (c :: t) rest fits b) :
    Parses (Parser.peek >>= f) (c :: t) rest fits b :=
  look (fun _ => rfl) h

theorem advance (c : Char) : Parses (Parser.advance 1) [c] rest True () :=
  ⟨fun _ _ => rfl, fun h => absurd trivial h⟩

theorem expect (c : Char) : Parses (Parser.expect c) [c] rest True () := by
  refine ⟨fun _ pos => ?_, fun h => absurd trivial h⟩
  have hrun : Parser.expect c ⟨pos, [c] ++ rest⟩ = (if (([c] ++ rest).head? ≠ some c)
      then Parser.fail ("expected '" ++ c.toString ++ "'") else Parser.advance 1)
        ⟨pos, [c] ++ rest⟩ := rfl
  rw [hrun, if_neg (by simp)]
  rfl

end Parses

/-! ## Strings and numbers -/

theorem parseChars_plain {c : Char} (hquote : c ≠ '"') (hslash : c ≠ '\\') (out : List Char) (pos : ℕ)
    (rest : List Char) :
    parseChars out pos (c :: rest) = parseChars (out ++ [c]) (pos + 1) rest := by
  rw [parseChars.eq_def]
  split <;> simp_all

/-- An escaped character is read as the character. -/
theorem parseChars_escape (c : Char) (out : List Char) (pos : ℕ) (rest : List Char) :
    parseChars out pos (escapeChar c ++ rest) =
      parseChars (out ++ [c]) (pos + (escapeChar c).length) rest := by
  by_cases hquote : c = '"'
  · subst hquote; rfl
  by_cases hslash : c = '\\'
  · subst hslash; rfl
  by_cases hnewline : c = '\n'
  · subst hnewline; rfl
  by_cases htab : c = '\t'
  · subst htab; rfl
  by_cases hreturn : c = '\r'
  · subst hreturn; rfl
  have hplain : escapeChar c = [c] := by
    unfold escapeChar
    split <;> simp_all
  rw [hplain]
  exact parseChars_plain hquote hslash out pos rest

theorem parseChars_quoted (s : List Char) (out : List Char) (pos : ℕ) (rest : List Char) :
    parseChars out pos (s.flatMap escapeChar ++ '"' :: rest) =
      .ok (String.ofList (out ++ s), ⟨pos + (s.flatMap escapeChar).length + 1, rest⟩) := by
  induction s generalizing out pos with
  | nil => simp [parseChars]
  | cons c s ih =>
    rw [List.flatMap_cons, List.append_assoc, parseChars_escape, ih, List.append_assoc,
      List.length_append, Nat.add_assoc pos]
    rfl

theorem parses_quote (s : String) : Parses parseString (quote s) rest True s := by
  refine ⟨fun _ pos => ?_, fun h => absurd trivial h⟩
  unfold parseString
  have hopen := (@Parses.expect (s.toList.flatMap escapeChar ++ '"' :: rest) '"').accepts trivial pos
  have htext : quote s ++ rest = ['"'] ++ (s.toList.flatMap escapeChar ++ '"' :: rest) := by
    simp [quote]
  rw [htext, bind_ok hopen]
  show some (parseChars [] _ (s.toList.flatMap escapeChar ++ '"' :: rest)) = _
  rw [parseChars_quoted, List.nil_append, String.ofList_toList]
  simp [quote]
  omega

theorem takeWhile_digits {ds rest : List Char} (hds : ∀ c ∈ ds, c.isDigit = true) (hrest : Stops rest) :
    (ds ++ rest).takeWhile Char.isDigit = ds := by
  have hnil : rest.takeWhile Char.isDigit = [] := by
    cases rest with
    | nil => rfl
    | cons c t =>
      refine List.takeWhile_cons_of_neg fun hc => ?_
      exact hrest.head (Or.inl hc) rfl
  rw [List.takeWhile_append_of_pos hds, hnil, List.append_nil]

/-- Digits without a sign. -/
theorem stoll_toDigits (n : ℕ) :
    stoll (Nat.toDigits 10 n) = if n < 2 ^ 63 then .ok (n : ℤ) else .error .outOfRange := by
  obtain ⟨c, t, h, hc⟩ := digits_cons n
  have hunsigned : stoll (Nat.toDigits 10 n) = toLongLong 1 (Nat.toDigits 10 n) := by
    rw [h]
    obtain ⟨d, hd, rfl⟩ := Decimal.exists_digitChar hc
    interval_cases d <;> rfl
  rw [hunsigned, toLongLong, if_neg Nat.toDigits_ne_nil, Decimal.value_toDigits, one_mul]
  by_cases hn : n < 2 ^ 63
  · rw [if_pos hn]
    exact if_neg (by omega)
  · rw [if_neg hn]
    exact if_pos (by omega)

theorem parses_number (n : ℕ) {rest : List Char} (hrest : Stops rest) :
    Parses parseNumber (Nat.toDigits 10 n) rest (n < 2 ^ 63) (.int n) := by
  have hdigits : ∀ c ∈ Nat.toDigits 10 n, c.isDigit = true := fun c hc =>
    Nat.isDigit_of_mem_toDigits (by decide) le_rfl hc
  obtain ⟨c, t, h, hc⟩ := digits_cons n
  have hsign : ¬ ((Nat.toDigits 10 n ++ rest).head? = some '-' ∨
      (Nat.toDigits 10 n ++ rest).head? = some '+') := by
    rw [h]
    rintro (hhead | hhead)
    all_goals
      obtain rfl := Option.some.inj hhead
      exact absurd hc (by decide)
  have hpoint : ¬ (rest.head? = some '.' ∨ rest.head? = some 'e' ∨ rest.head? = some 'E') := by
    rintro (hhead | hhead | hhead)
    · exact hrest.head (Or.inr (by simp)) hhead
    · exact hrest.head (Or.inr (by simp)) hhead
    · exact hrest.head (Or.inr (by simp)) hhead
  have hpos : (Nat.toDigits 10 n).length ≠ 0 := by
    rw [h]
    simp
  have hrun : ∀ pos, parseNumber ⟨pos, Nat.toDigits 10 n ++ rest⟩ =
      some ((stoll (Nat.toDigits 10 n)).map fun value =>
        (.int value, ⟨pos + (Nat.toDigits 10 n).length, rest⟩)) := by
    intro pos
    unfold parseNumber
    have hget : ∀ c, (get : Parser Cursor) c = some (.ok (c, c)) := fun _ => rfl
    rw [bind_ok (hget _)]
    simp only [if_neg hsign, List.drop_zero, takeWhile_digits hdigits hrest, Nat.zero_add,
      List.take_left]
    have hadvance : Parser.advance (Nat.toDigits 10 n).length ⟨pos, Nat.toDigits 10 n ++ rest⟩ =
        some (.ok ((), ⟨pos + (Nat.toDigits 10 n).length, rest⟩)) := by
      show some (Except.ok ((), Cursor.mk _ ((Nat.toDigits 10 n ++ rest).drop _))) = _
      rw [List.drop_left]
    rw [bind_ok hadvance, if_neg hpos, bind_ok (hget _), if_neg hpoint]
    cases stoll (Nat.toDigits 10 n) <;> rfl
  rw [stoll_toDigits] at hrun
  constructor
  · intro hn pos
    rw [hrun, if_pos hn]
    rfl
  · intro hn pos
    rw [hrun, if_neg hn]
    rfl

/-! ## Values -/

theorem isSpace_text {c : Char} (hc : c ∈ ['n', '"', '[', '{'] ∨ c.isDigit = true) :
    isSpace c = false ∧ c ≠ ']' := by
  rcases hc with hc | hc
  · simp only [List.mem_cons, List.not_mem_nil, or_false] at hc
    rcases hc with rfl | rfl | rfl | rfl <;> decide
  · obtain ⟨d, hd, rfl⟩ := Decimal.exists_digitChar hc
    interval_cases d <;> decide

theorem stops_cons {c : Char} (hc : c ∈ [',', ']', '}']) (rest : List Char) : Stops (c :: rest) := by
  intro c' t h
  obtain ⟨rfl, rfl⟩ := List.cons.inj h
  exact hc

/-- What a document is read as, in front of every text that can follow it. -/
def ParsesTree (j : JsonTree) : Prop :=
  ∀ fuel rest, 3 * j.text.length ≤ fuel → Stops rest →
    Parses (parseValue fuel) j.text rest (FitsLongLong j) (ofTree j)

/-- The loop over the items: what is read behind an item decides whether another one comes. -/
theorem parses_items {items : List JsonTree} (hne : items ≠ []) (h : ∀ j ∈ items, ParsesTree j)
    {fuel : ℕ} (hfuel : 3 * (commas (items.map text)).length + 3 ≤ fuel) (acc : List Value)
    (rest : List Char) :
    Parses (parseItems fuel acc) (commas (items.map text) ++ [']']) rest
      (∀ j ∈ items, FitsLongLong j) (.array (acc ++ ofItems items)) := by
  induction items generalizing fuel acc with
  | nil => exact absurd rfl hne
  | cons j items ih =>
    have hj := h j (List.mem_cons_self ..)
    obtain ⟨fuel, rfl⟩ := Nat.exists_eq_succ_of_ne_zero (Nat.ne_of_gt (Nat.lt_of_lt_of_le
      (Nat.succ_pos _) hfuel))
    rw [parseItems]
    cases items with
    | nil =>
      rw [List.map_singleton, commas_singleton] at hfuel ⊢
      refine Parses.mono (?_ : Parses _ _ _ (FitsLongLong j ∧ True) _) (by simp)
      refine (hj fuel _ (by omega) (stops_cons (by simp) rest)).bind ?_
      refine Parses.skip (by decide) (Parses.peek ?_)
      rw [if_neg (by decide), if_pos rfl]
      exact (Parses.advance ']').seq Parses.pure
    | cons j' items =>
      rw [List.map_cons, List.map_cons, commas_cons_cons] at hfuel ⊢
      rw [List.length_append, List.length_cons] at hfuel
      rw [List.append_assoc]
      refine Parses.mono (?_ : Parses _ _ _ (FitsLongLong j ∧ ∀ j ∈ j' :: items, FitsLongLong j) _)
        (by simp)
      refine (hj fuel _ (by omega) (stops_cons (by simp) _)).bind ?_
      refine Parses.skip (by decide) (Parses.peek ?_)
      rw [if_pos rfl]
      have hrest : Parses (parseItems fuel (acc ++ [ofTree j])) _ rest _ _ :=
        ih (List.cons_ne_nil j' items) (fun j hj => h j (List.mem_cons_of_mem _ hj))
          (by rw [List.map_cons]; omega) (acc ++ [ofTree j])
      rw [List.append_assoc] at hrest
      exact (Parses.advance ',').seq hrest

/-- One field, and what the character behind it decides. -/
theorem parses_field {f : String × JsonTree} (h : ParsesTree f.2) {fuel : ℕ}
    (hfuel : 3 * f.2.text.length ≤ fuel) {o : List (String × Value)} {c : Char}
    (hc : c ∈ [',', ']', '}']) {t rest : List Char} {fits : Prop} {b : Value}
    (hnext : Parses
      (if c = ',' then do
        Parser.advance 1
        parseFields fuel (emplace f.1 (ofTree f.2) o)
      else if c = '}' then do
        Parser.advance 1
        Pure.pure (.object (emplace f.1 (ofTree f.2) o))
      else fail "expected ',' or '\x7d'") (c :: t) rest fits b) :
    Parses (parseFields (fuel + 1) o) (quote f.1 ++ ':' :: text f.2 ++ c :: t) rest
      (FitsLongLong f.2 ∧ fits) b := by
  have hspace : isSpace c = false := by
    simp only [List.mem_cons, List.not_mem_nil, or_false] at hc
    rcases hc with rfl | rfl | rfl <;> decide
  have hvalue := (h fuel _ hfuel (stops_cons hc (t ++ rest))).bind (f := fun v => do
      skipWhitespace
      let c ← Parser.peek
      if c = ',' then do
        Parser.advance 1
        parseFields fuel (emplace f.1 v o)
      else if c = '}' then do
        Parser.advance 1
        Pure.pure (.object (emplace f.1 v o))
      else fail "expected ',' or '\x7d'") (Parses.skip hspace (Parses.peek hnext))
  rw [parseFields, List.append_assoc]
  exact Parses.skip (by decide) ((parses_quote f.1).seq
    (Parses.skip (by decide) ((Parses.expect ':').seq hvalue)))

/-- The loop over the fields. -/
theorem parses_fields {fields : List (String × JsonTree)} (hne : fields ≠ [])
    (h : ∀ f ∈ fields, ParsesTree f.2) {fuel : ℕ}
    (hfuel : 3 * (commas (fields.map fun f => quote f.1 ++ ':' :: text f.2)).length + 3 ≤ fuel)
    (o : List (String × Value)) (rest : List Char) :
    Parses (parseFields fuel o) (commas (fields.map fun f => quote f.1 ++ ':' :: text f.2) ++ ['}'])
      rest (∀ f ∈ fields, FitsLongLong f.2) (.object (ofFields o fields)) := by
  induction fields generalizing fuel o with
  | nil => exact absurd rfl hne
  | cons f fields ih =>
    have hf := h f (List.mem_cons_self ..)
    obtain ⟨fuel, rfl⟩ := Nat.exists_eq_succ_of_ne_zero (Nat.ne_of_gt (Nat.lt_of_lt_of_le
      (Nat.succ_pos _) hfuel))
    cases fields with
    | nil =>
      rw [List.map_singleton, commas_singleton] at hfuel ⊢
      rw [List.length_append, List.length_cons] at hfuel
      refine Parses.mono (?_ : Parses _ _ _ (FitsLongLong f.2 ∧ True) _) (by simp)
      refine parses_field hf (by omega) (by simp) ?_
      rw [if_neg (by decide), if_pos rfl]
      exact (Parses.advance '}').seq Parses.pure
    | cons f' fields =>
      rw [List.map_cons, List.map_cons, commas_cons_cons] at hfuel ⊢
      rw [List.length_append, List.length_append, List.length_cons, List.length_cons] at hfuel
      rw [List.append_assoc]
      refine Parses.mono (?_ : Parses _ _ _ (FitsLongLong f.2 ∧ ∀ f ∈ f' :: fields, FitsLongLong f.2)
        _) (by simp)
      refine parses_field hf (by omega) (by simp) ?_
      rw [if_pos rfl]
      exact (Parses.advance ',').seq (ih (List.cons_ne_nil f' fields)
        (fun f hf => h f (List.mem_cons_of_mem _ hf)) (by rw [List.map_cons]; omega)
        (emplace f.1 (ofTree f.2) o))

/-- A document is not empty: the fuel is not either. -/
theorem exists_fuel {j : JsonTree} {fuel : ℕ} (h : 3 * j.text.length ≤ fuel) :
    ∃ k, fuel = k + 1 + 1 ∧ 3 * j.text.length ≤ k + 2 := by
  obtain ⟨c, t, ht, -⟩ := j.text_cons
  rw [ht, List.length_cons] at h ⊢
  exact ⟨fuel - 2, by omega, by omega⟩

/-- **Reading back.** The text of a document is read as the document, if its numbers fit. -/
theorem parses_value (j : JsonTree) : ParsesTree j := by
  induction j using JsonTree.induction with
  | null =>
    intro fuel rest hfuel _
    obtain ⟨fuel, rfl, -⟩ := exists_fuel hfuel
    rw [parseValue]
    refine Parses.mono (Parses.skip (by decide) (Parses.peek (?_ : Parses _ _ _ True _))) ?_
    · exact ⟨fun _ _ => rfl, fun h => absurd trivial h⟩
    · rw [FitsLongLong, AllNumbers]
  | num n =>
    intro fuel rest hfuel hrest
    obtain ⟨fuel, rfl, -⟩ := exists_fuel hfuel
    have hnumber := parses_number n hrest
    rw [text, ofTree, FitsLongLong, AllNumbers, parseValue]
    obtain ⟨c, t, h, hc⟩ := digits_cons n
    rw [h] at hnumber ⊢
    refine Parses.skip (isSpace_text (Or.inr hc)).1 (Parses.peek ?_)
    obtain ⟨d, hd, rfl⟩ := Decimal.exists_digitChar hc
    interval_cases d <;> exact hnumber
  | str s =>
    intro fuel rest hfuel _
    obtain ⟨fuel, rfl, -⟩ := exists_fuel hfuel
    have hstring := (@parses_quote ([] ++ rest) s).seq (f := fun s => Pure.pure (Value.string s))
      Parses.pure
    rw [List.append_nil] at hstring
    rw [text, ofTree, FitsLongLong, AllNumbers, parseValue]
    exact Parses.skip (by decide) (Parses.peek hstring)
  | arr items ih =>
    intro fuel rest hfuel _
    obtain ⟨fuel, rfl, hfuel⟩ := exists_fuel hfuel
    rw [text, itemTexts_eq] at hfuel ⊢
    rw [ofTree, FitsLongLong, AllNumbers, parseValue]
    refine Parses.skip (by decide) (Parses.peek ?_)
    show Parses (parseArray (fuel + 1)) (['['] ++ (commas (items.map text) ++ [']'])) rest _ _
    rw [parseArray]
    refine (Parses.expect '[').seq ?_
    cases items with
    | nil =>
      refine Parses.skip (by decide) (Parses.peek ?_)
      rw [if_pos rfl]
      have hclose : Parses (do
          Parser.advance 1
          Pure.pure (Value.array [])) ([']'] ++ []) rest True (.array []) :=
        (Parses.advance ']').seq Parses.pure
      exact hclose.mono (by simp)
    | cons j items =>
      -- an item does not begin with the closing bracket
      obtain ⟨c, t, h, hc⟩ := j.text_cons
      obtain ⟨hspace, hclose⟩ := isSpace_text hc
      have hitems : Parses (parseItems fuel []) _ rest _ _ :=
        parses_items (List.cons_ne_nil j items) ih
          (by simp only [List.length_append, List.length_cons, List.length_nil] at hfuel; omega) [] rest
      obtain ⟨t', ht'⟩ : ∃ t', commas ((j :: items).map text) ++ [']'] = c :: t' := by
        cases items with
        | nil => exact ⟨_, by rw [List.map_singleton, commas_singleton, h]; rfl⟩
        | cons j' items => exact ⟨_, by rw [List.map_cons, List.map_cons, commas_cons_cons, h]; rfl⟩
      rw [ht'] at hitems ⊢
      refine Parses.skip hspace (Parses.peek ?_)
      rw [if_neg hclose]
      exact hitems
  | obj fields ih =>
    intro fuel rest hfuel _
    obtain ⟨fuel, rfl, hfuel⟩ := exists_fuel hfuel
    rw [text, fieldTexts_eq] at hfuel ⊢
    rw [ofTree, FitsLongLong, AllNumbers, parseValue]
    refine Parses.skip (by decide) (Parses.peek ?_)
    show Parses (parseObject (fuel + 1)) (['{'] ++ (commas (fields.map _) ++ ['}'])) rest _ _
    rw [parseObject]
    refine (Parses.expect '{').seq ?_
    cases fields with
    | nil =>
      refine Parses.skip (by decide) (Parses.peek ?_)
      rw [if_pos rfl]
      have hclose : Parses (do
          Parser.advance 1
          Pure.pure (Value.object [])) (['}'] ++ []) rest True (.object []) :=
        (Parses.advance '}').seq Parses.pure
      exact hclose.mono (by simp)
    | cons f fields =>
      have hfields : Parses (parseFields fuel []) _ rest _ _ :=
        parses_fields (List.cons_ne_nil f fields) ih
          (by simp only [List.length_append, List.length_cons, List.length_nil] at hfuel; omega) [] rest
      obtain ⟨t', ht'⟩ : ∃ t', commas ((f :: fields).map fun f => quote f.1 ++ ':' :: text f.2) ++
          ['}'] = '"' :: t' := by
        cases fields with
        | nil => exact ⟨_, by rw [List.map_singleton, commas_singleton]; rfl⟩
        | cons f' fields => exact ⟨_, by rw [List.map_cons, List.map_cons, commas_cons_cons]; rfl⟩
      rw [ht'] at hfields ⊢
      refine Parses.skip (by decide) (Parses.peek ?_)
      rw [if_neg (by decide)]
      exact hfields

end Parser

theorem parse_of_document {text : List Char} {r : Except Exception (Value × Cursor)}
    (h : Parser.document (3 * text.length + 2) ⟨0, text⟩ = some r) :
    parse text = some (r.map (·.1)) := by
  show ExceptT.map (·.1) (Parser.document (3 * text.length + 2) ⟨0, text⟩) = _
  rw [h]
  cases r <;> rfl

/-- The text of a whole document. -/
theorem parse_text (j : JsonTree) :
    (FitsLongLong j → parse j.text = some (.ok (ofTree j))) ∧
      (¬ FitsLongLong j → parse j.text = some (.error .outOfRange)) := by
  have hend : Parser.Parses (do
      Parser.skipWhitespace
      let c ← get
      if c.rest ≠ [] then Parser.raise (.runtimeError "json: trailing content") else pure (ofTree j))
      [] [] True (ofTree j) := ⟨fun _ _ => rfl, fun h => absurd trivial h⟩
  have hvalue := (Parser.parses_value j (3 * j.text.length + 2) ([] ++ []) (Nat.le_add_right ..)
    (fun c t h => by cases h)).bind
    (f := fun v => do
      Parser.skipWhitespace
      let c ← get
      if c.rest ≠ [] then Parser.raise (.runtimeError "json: trailing content") else pure v) hend
  obtain ⟨c, t, h, hc⟩ := j.text_cons
  have hdocument : Parser.Parses (Parser.document (3 * j.text.length + 2)) j.text []
      (FitsLongLong j) (ofTree j) := by
    rw [List.append_nil, and_true] at hvalue
    unfold Parser.document
    rw [h] at hvalue ⊢
    exact Parser.Parses.skip (Parser.isSpace_text hc).1 hvalue
  constructor
  · intro hfits
    have hread := hdocument.accepts hfits 0
    rw [List.append_nil] at hread
    exact parse_of_document hread
  · intro hfits
    have hread := hdocument.overflows hfits 0
    rw [List.append_nil] at hread
    exact parse_of_document hread

/-! ## Nothing is lost -/

/-- The value has the numbers, the strings and the keys of the document, and no others. -/
inductive Value.Reads : Value → JsonTree → Prop where
  | null : Reads .null .null
  | int (n : ℕ) : Reads (.int n) (.num n)
  | string (s : String) : Reads (.string s) (.str s)
  | array {values : List Value} {items : List JsonTree} (h : List.Forall₂ Reads values items) :
    Reads (.array values) (.arr items)
  | object {o entries : List (String × Value)} {fields : List (String × JsonTree)}
    (hentries : o.Perm entries) (hkeys : entries.map (·.1) = fields.map (·.1))
    (hvalues : List.Forall₂ Reads (entries.map (·.2)) (fields.map (·.2))) :
    Reads (.object o) (.obj fields)

theorem emplace_perm {key : String} {v : Value} {o : List (String × Value)}
    (h : key ∉ o.map (·.1)) : (emplace key v o).Perm ((key, v) :: o) := by
  induction o with
  | nil => rfl
  | cons e o ih =>
    rw [List.map_cons, List.mem_cons, not_or] at h
    unfold emplace
    by_cases hlt : key < e.1
    · rw [if_pos hlt]
    · rw [if_neg hlt, if_neg h.1]
      exact ((ih h.2).cons e).trans (.swap ..)

/-- Distinct keys are all put into the map. -/
theorem ofFields_perm {fields : List (String × JsonTree)} {o : List (String × Value)}
    (h : (o.map (·.1) ++ fields.map (·.1)).Nodup) :
    (ofFields o fields).Perm (o ++ fields.map fun f => (f.1, ofTree f.2)) := by
  induction fields generalizing o with
  | nil => simp [ofFields]
  | cons f fields ih =>
    have hfresh : f.1 ∉ o.map (·.1) := fun hmem =>
      List.disjoint_of_nodup_append h hmem (List.mem_cons_self ..)
    have hperm := emplace_perm (v := ofTree f.2) hfresh
    have hnodup : ((emplace f.1 (ofTree f.2) o).map (·.1) ++ fields.map (·.1)).Nodup := by
      refine (((hperm.map (·.1)).append_right _).nodup_iff).mpr ?_
      rw [List.map_cons] at h
      exact (List.perm_middle.nodup_iff).mp h
    rw [ofFields, List.map_cons]
    refine (ih hnodup).trans ((hperm.append_right _).trans ?_)
    exact List.perm_middle.symm

theorem ofItems_eq (items : List JsonTree) : ofItems items = items.map ofTree := by
  induction items with
  | nil => rfl
  | cons j items ih => rw [ofItems, ih, List.map_cons]

/-- A document without two fields under one key is read as it was written. -/
theorem reads_ofTree (j : JsonTree) (h : j.DistinctKeys) : (ofTree j).Reads j := by
  induction j using JsonTree.induction with
  | null => exact .null
  | num n => exact .int n
  | str s => exact .string s
  | arr items ih =>
    rw [DistinctKeys] at h
    rw [ofTree, ofItems_eq]
    refine .array ?_
    rw [List.forall₂_map_left_iff, List.forall₂_same]
    exact fun j hj => ih j hj (h j hj)
  | obj fields ih =>
    rw [DistinctKeys] at h
    obtain ⟨hkeys, hfields⟩ := h
    rw [ofTree]
    refine .object (ofFields_perm (by simpa using hkeys)) ?_ ?_
    · simp
    · rw [List.nil_append, List.map_map, List.forall₂_map_left_iff, List.forall₂_map_right_iff,
        List.forall₂_same]
      exact fun f hf => ih f hf (hfields f hf)

end FairCross.Json
