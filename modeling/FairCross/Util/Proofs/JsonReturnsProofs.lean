import FairCross.Util.Proofs.JsonProofs

/-!
# The reader returns

The recursion of the parser runs on fuel, and `parse` gives it a bound on the length of the text. That
is enough for every text, well formed or not: a method that returns has not gone back, a value takes at
least one character, and a loop comes to its next round with fewer.
-/

namespace FairCross.Json

namespace Parser

variable {α β : Type} {p : Parser α} {f : α → Parser β}

/-- On at most `n` characters the method has a result, and takes `m` of them if it succeeds. -/
def Returns (n m : ℕ) (p : Parser α) : Prop :=
  ∀ c : Cursor, c.rest.length ≤ n → ∃ r, p c = some r ∧
    ∀ a c', r = .ok (a, c') → c'.rest.length + m ≤ c.rest.length

namespace Returns

variable {n m l : ℕ}

theorem pure (a : α) : Returns n 0 (Pure.pure a) := by
  intro c _
  refine ⟨.ok (a, c), rfl, ?_⟩
  rintro b c' h
  obtain ⟨-, rfl⟩ := Prod.mk.inj (Except.ok.inj h)
  exact le_rfl

theorem raise (e : Exception) : Returns n m (Parser.raise e : Parser α) := by
  intro c _
  exact ⟨.error e, rfl, fun a c' h => nomatch h⟩

theorem fail (why : String) : Returns n m (Parser.fail why : Parser α) := by
  intro c _
  exact ⟨_, rfl, fun a c' h => nomatch h⟩

theorem mono (h : Returns n m p) (hm : l ≤ m) : Returns n l p := by
  intro c hc
  obtain ⟨r, hr, htaken⟩ := h c hc
  exact ⟨r, hr, fun a c' heq => le_trans (Nat.add_le_add_left hm _) (htaken a c' heq)⟩

theorem bind (h : Returns n m p) (h' : ∀ a, m ≤ n → Returns (n - m) l (f a)) :
    Returns n (m + l) (p >>= f) := by
  intro c hc
  obtain ⟨r, hr, htaken⟩ := h c hc
  cases r with
  | error e => exact ⟨.error e, bind_error hr, fun a c' heq => nomatch heq⟩
  | ok r =>
    have htaken := htaken r.1 r.2 rfl
    obtain ⟨r', hr', htaken'⟩ := h' r.1 (by omega) r.2 (by omega)
    refine ⟨r', by rw [bind_ok hr, hr'], fun b c' heq => ?_⟩
    have := htaken' b c' heq
    omega

/-- A first part whose characters do not count. -/
theorem seq (h : Returns n 0 p) (h' : ∀ a, Returns n m (f a)) : Returns n m (p >>= f) :=
  (h.bind fun a _ => h' a).mono (Nat.le_of_eq (Nat.zero_add m).symm)

theorem advance (k : ℕ) : Returns n 0 (Parser.advance k) := by
  intro c _
  refine ⟨.ok ((), ⟨c.pos + k, c.rest.drop k⟩), rfl, ?_⟩
  rintro a c' h
  obtain ⟨-, rfl⟩ := Prod.mk.inj (Except.ok.inj h)
  show (c.rest.drop k).length + 0 ≤ _
  rw [List.length_drop]
  omega

theorem skipWhitespace : Returns n 0 Parser.skipWhitespace := fun c hc => advance _ c hc

theorem peek : Returns n 0 Parser.peek := by
  rintro ⟨pos, rest⟩ hc
  cases rest with
  | nil => exact raise _ _ hc
  | cons ch rest => exact pure ch _ hc

theorem expect (ch : Char) : Returns n 1 (Parser.expect ch) := by
  rintro ⟨pos, rest⟩ hc
  have hrun : Parser.expect ch ⟨pos, rest⟩ = (if rest.head? ≠ some ch
      then Parser.fail ("expected '" ++ ch.toString ++ "'") else Parser.advance 1) ⟨pos, rest⟩ := rfl
  rw [hrun]
  by_cases h : rest.head? = some ch
  · rw [if_neg (not_not.mpr h)]
    obtain ⟨rest, rfl⟩ := List.head?_eq_some_iff.mp h
    refine ⟨_, rfl, ?_⟩
    rintro a c' heq
    obtain ⟨-, rfl⟩ := Prod.mk.inj (Except.ok.inj heq)
    exact le_rfl
  · rw [if_pos h]
    exact fail _ _ hc

end Returns

/-! ## Strings, literals and numbers -/

/-- The loop over the characters does not go back. -/
theorem parseChars_length {out : List Char} {pos : ℕ} {rest : List Char} {s : String} {c : Cursor}
    (h : parseChars out pos rest = .ok (s, c)) : c.rest.length ≤ rest.length := by
  fun_induction parseChars out pos rest with
  | case1 => cases h
  | case2 out pos rest =>
    obtain ⟨-, rfl⟩ := Prod.mk.inj (Except.ok.inj h)
    exact Nat.le_succ _
  | case3 => cases h
  | case4 _ _ _ _ _ _ ih =>
    have := ih h
    simp only [List.length_cons]
    omega
  | case5 => cases h
  | case6 out pos ch rest _ _ _ ih =>
    have := ih h
    simp only [List.length_cons]
    omega

namespace Returns

variable {n m l : ℕ}

theorem parseString : Returns n 1 Parser.parseString := by
  refine (expect '"').bind (l := 0) fun _ _ c _ => ⟨parseChars [] c.pos c.rest, rfl, ?_⟩
  exact fun s c' h => parseChars_length h

/-- A literal that is there is taken. -/
theorem literal {literal : List Char} (hne : literal ≠ []) (v : Value) :
    Returns n 1 (do
      let ok ← consumeLiteral literal
      if ok then Pure.pure v else Parser.fail "bad literal") := by
  intro c hc
  have hrun : consumeLiteral literal c = if literal.isPrefixOf c.rest
      then some (.ok (true, ⟨c.pos + literal.length, c.rest.drop literal.length⟩))
      else some (.ok (false, c)) := by
    unfold consumeLiteral
    rw [bind_ok (rfl : (get : Parser Cursor) c = some (.ok (c, c)))]
    split <;> rfl
  by_cases h : literal.isPrefixOf c.rest
  · rw [if_pos h] at hrun
    rw [bind_ok hrun]
    refine ⟨_, rfl, ?_⟩
    rintro a c' heq
    obtain ⟨-, rfl⟩ := Prod.mk.inj (Except.ok.inj heq)
    have hlen := (List.isPrefixOf_iff_prefix.mp h).length_le
    have hpos := List.length_pos_of_ne_nil hne
    show (c.rest.drop literal.length).length + 1 ≤ _
    rw [List.length_drop]
    omega
  · rw [if_neg h] at hrun
    rw [bind_ok hrun]
    exact fail _ c hc

theorem get : Returns n 0 (MonadState.get : Parser Cursor) := fun c hc => pure c c hc

/-- What is done behind the first of the characters. -/
theorem behind (h : Returns n 0 p) {pos k : ℕ} {ch : Char} {rest : List Char} (hk : k ≠ 0)
    (hlen : (ch :: rest).length ≤ n) :
    ∃ r, p ⟨pos, (ch :: rest).drop k⟩ = some r ∧
      ∀ a c', r = .ok (a, c') → c'.rest.length + 1 ≤ (ch :: rest).length := by
  have hdrop : ((ch :: rest).drop k).length + 1 ≤ (ch :: rest).length := by
    rw [List.length_drop, List.length_cons]
    omega
  obtain ⟨r, hr, htaken⟩ :=
    h ⟨pos, (ch :: rest).drop k⟩ (le_trans (Nat.le_of_succ_le hdrop) hlen)
  exact ⟨r, hr, fun a c' heq => le_trans (Nat.succ_le_succ (htaken a c' heq)) hdrop⟩

/-- A number has a character. -/
theorem parseNumber : Returns n 1 Parser.parseNumber := by
  rintro ⟨pos, _ | ⟨ch, rest⟩⟩ hc
  · exact ⟨_, rfl, fun a c' h => nomatch h⟩
  unfold Parser.parseNumber
  rw [bind_ok (rfl : (MonadState.get : Parser Cursor) ⟨pos, ch :: rest⟩ = some (.ok (_, _)))]
  generalize (if (ch :: rest).head? = some '-' ∨ (ch :: rest).head? = some '+'
    then 1 else 0) = sign
  generalize sign + (((ch :: rest).drop sign).takeWhile Char.isDigit).length = k
  rw [bind_ok (rfl : Parser.advance k ⟨pos, ch :: rest⟩ = some (.ok ((), _)))]
  by_cases h : k = 0
  · rw [if_pos h]
    exact ⟨_, rfl, fun a c' h => nomatch h⟩
  · rw [if_neg h]
    refine behind (get.seq fun c => ?_) h hc
    by_cases hpoint : c.rest.head? = some '.' ∨ c.rest.head? = some 'e' ∨ c.rest.head? = some 'E'
    · rw [if_pos hpoint]
      exact fail _
    · rw [if_neg hpoint]
      cases stoll ((ch :: rest).take k) with
      | ok value => exact pure _
      | error e => exact raise e

end Returns

/-! ## The fuel -/

/-- What the methods can do with the fuel: each has a result on so many characters. -/
structure ReturnsAll (fuel : ℕ) : Prop where
  value : ∀ n, 3 * n + 2 ≤ fuel → Returns n 1 (parseValue fuel)
  object : ∀ n, 3 * n + 1 ≤ fuel → Returns n 1 (parseObject fuel)
  fields : ∀ n o, 3 * n + 3 ≤ fuel → Returns n 1 (parseFields fuel o)
  array : ∀ n, 3 * n + 1 ≤ fuel → Returns n 1 (parseArray fuel)
  items : ∀ n items, 3 * n + 3 ≤ fuel → Returns n 1 (parseItems fuel items)

variable {fuel n : ℕ}

/-- Behind an opening bracket: the closing one, or the first round of the loop. -/
theorem Returns.opening {first : Parser Value} {v : Value} {closing : Char} (h : Returns n 0 first) :
    Returns n 0 (do
      Parser.skipWhitespace
      let c ← Parser.peek
      if c = closing then do
        Parser.advance 1
        Pure.pure v
      else first) := by
  refine skipWhitespace.seq fun _ => peek.seq fun c => ?_
  by_cases hclosing : c = closing
  · rw [if_pos hclosing]
    exact (advance 1).seq fun _ => pure v
  · rw [if_neg hclosing]
    exact h

/-- The end of a round: another one, or the closing bracket. -/
theorem Returns.loop {next : Parser Value} {v : Value} {closing : Char} {why : String}
    (h : Returns n 0 next) :
    Returns n 0 (do
      Parser.skipWhitespace
      let c ← Parser.peek
      if c = ',' then do
        Parser.advance 1
        next
      else if c = closing then do
        Parser.advance 1
        Pure.pure v
      else Parser.fail why) := by
  refine skipWhitespace.seq fun _ => peek.seq fun c => ?_
  by_cases hcomma : c = ','
  · rw [if_pos hcomma]
    exact (advance 1).seq fun _ => h
  rw [if_neg hcomma]
  by_cases hclosing : c = closing
  · rw [if_pos hclosing]
    exact (advance 1).seq fun _ => pure v
  · rw [if_neg hclosing]
    exact fail _

-- a bracket is one character, and costs three calls: of the array, of the loop and of the value in it
theorem ReturnsAll.step (h : ReturnsAll fuel) : ReturnsAll (fuel + 1) where
  value n hfuel := by
    rw [parseValue]
    refine Returns.skipWhitespace.seq fun _ => Returns.peek.seq fun c => ?_
    split
    · exact h.object n (by omega)
    · exact h.array n (by omega)
    · exact Returns.parseString.bind fun s _ => Returns.pure _
    · exact Returns.literal (by simp) _
    · exact Returns.literal (by simp) _
    · exact Returns.literal (by simp) _
    · exact Returns.parseNumber
  object n hfuel := by
    rw [parseObject]
    refine (Returns.expect '{').bind (l := 0) fun _ hn => ?_
    exact Returns.opening ((h.fields (n - 1) [] (by omega)).mono (Nat.zero_le _))
  fields n o hfuel := by
    rw [parseFields]
    refine Returns.skipWhitespace.seq fun _ => Returns.parseString.bind (l := 0) fun key hn => ?_
    refine Returns.skipWhitespace.seq fun _ => ((Returns.expect ':').bind (l := 0)
      fun _ hn' => ?_).mono (Nat.zero_le _)
    refine ((h.value (n - 1 - 1) (by omega)).bind (l := 0) fun v hn'' => ?_).mono (Nat.zero_le _)
    exact Returns.loop ((h.fields (n - 1 - 1 - 1) _ (by omega)).mono (Nat.zero_le _))
  array n hfuel := by
    rw [parseArray]
    refine (Returns.expect '[').bind (l := 0) fun _ hn => ?_
    exact Returns.opening ((h.items (n - 1) [] (by omega)).mono (Nat.zero_le _))
  items n items hfuel := by
    rw [parseItems]
    refine (h.value n (by omega)).bind (l := 0) fun v hn => ?_
    exact Returns.loop ((h.items (n - 1) _ (by omega)).mono (Nat.zero_le _))

theorem returnsAll (fuel : ℕ) : ReturnsAll fuel := by
  induction fuel with
  | zero => constructor <;> intros <;> omega
  | succ fuel ih => exact ih.step

end Parser

/-- **The reader returns.** Every text is read as a value or refused. -/
theorem exists_parse (text : List Char) : ∃ r, parse text = some r := by
  have hdocument : Parser.Returns text.length 0 (Parser.document (3 * text.length + 2)) := by
    unfold Parser.document
    refine Parser.Returns.skipWhitespace.seq fun _ => ?_
    refine (((Parser.returnsAll _).value text.length le_rfl).mono (Nat.zero_le 1)).seq fun v => ?_
    refine Parser.Returns.skipWhitespace.seq fun _ => Parser.Returns.get.seq fun c => ?_
    by_cases hrest : c.rest ≠ []
    · rw [if_pos hrest]
      exact Parser.Returns.raise _
    · rw [if_neg hrest]
      exact Parser.Returns.pure v
  obtain ⟨r, hr, -⟩ := hdocument ⟨0, text⟩ le_rfl
  exact ⟨_, parse_of_document hr⟩

end FairCross.Json
