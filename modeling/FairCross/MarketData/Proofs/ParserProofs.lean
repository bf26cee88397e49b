import FairCross.MarketData.Parser
import FairCross.Library.ByteOrder
import FairCross.Library.Framing

/-!
# The framing of an ITCH stream

A frame is a two-byte big-endian length and that many payload bytes. The parser never reads outside
what it was handed, and it accepts a stream exactly when the stream is a sequence of frames whose
payloads parse.
-/

namespace FairCross

open BigEndian

/-! ## Reads inside the bytes -/

/-- Steps that each return a value return one together. -/
theorem exists_bind {α β : Type} {o : Option α} {f : α → Option β} (ho : ∃ a, o = some a)
    (hf : ∀ a, ∃ b, f a = some b) : ∃ b, (o >>= f) = some b := by
  obtain ⟨a, rfl⟩ := ho
  exact hf a

variable {data : List UInt8} {offset n : ℕ}

theorem exists_byte (h : offset < data.length) : ∃ b, data[offset]? = some b :=
  ⟨_, List.getElem?_eq_getElem h⟩

theorem exists_readU16Be (h : offset + 2 ≤ data.length) : ∃ v, readU16Be data offset = some v := by
  refine exists_bind (exists_byte (by omega)) fun b0 => ?_
  exact exists_bind (exists_byte (by omega)) fun b1 => ⟨_, rfl⟩

theorem exists_readU32Be (h : offset + 4 ≤ data.length) : ∃ v, readU32Be data offset = some v := by
  refine exists_bind (exists_byte (by omega)) fun b0 => ?_
  refine exists_bind (exists_byte (by omega)) fun b1 => ?_
  refine exists_bind (exists_byte (by omega)) fun b2 => ?_
  exact exists_bind (exists_byte (by omega)) fun b3 => ⟨_, rfl⟩

theorem exists_readLoopBe (h : offset + n ≤ data.length) : ∃ v, readLoopBe n data offset = some v := by
  have hloop : ∀ (l : List ℕ) (val : U64), (∀ i ∈ l, offset + i < data.length) →
      ∃ v, l.foldlM (fun (val : U64) i => do
        let byte ← data[offset + i]?
        pure (toU64 ((val : ℕ) <<< 8 ||| byte.toNat))) val = some v := by
    intro l
    induction l with
    | nil => exact fun val _ => ⟨val, rfl⟩
    | cons i l ih =>
      intro val hl
      rw [List.foldlM_cons]
      refine exists_bind ?_ fun val' => ih val' fun j hj => hl j (List.mem_cons_of_mem _ hj)
      exact exists_bind (exists_byte (hl i (List.mem_cons_self ..))) fun byte => ⟨_, rfl⟩
  exact hloop _ 0 fun i hi => by
    have := List.mem_range.mp hi
    omega

theorem exists_copyBytes (h : offset + n ≤ data.length) : ∃ v, copyBytes n data offset = some v :=
  ⟨_, dif_pos h⟩

namespace ItchStreamParser

/-! ### The cases

Every case checks the length of the payload before it reads. -/

/-- The step returns, and it returns a message exactly under `accepts`. -/
structure Returns (o : Option (Result ItchMessage)) (accepts : Prop) : Prop where
  returns : ∃ r, o = some r
  ok_iff : (∃ msg, o = some (.ok msg)) ↔ accepts

namespace Returns

variable {accepts : Prop}

theorem ok (msg : ItchMessage) : Returns (some (.ok msg)) True := by
  refine ⟨⟨_, rfl⟩, ?_⟩
  rw [iff_true]
  exact ⟨msg, rfl⟩

theorem error (e : Error) : Returns (some (.error e)) False := by
  refine ⟨⟨_, rfl⟩, ?_⟩
  rw [iff_false]
  rintro ⟨msg, h⟩
  cases h

theorem bind {α : Type} {o : Option α} {f : α → Option (Result ItchMessage)} (ho : ∃ a, o = some a)
    (hf : ∀ a, Returns (f a) accepts) : Returns (o >>= f) accepts := by
  obtain ⟨a, rfl⟩ := ho
  exact hf a

theorem checked {k : ℕ} {p : Option (Result ItchMessage)} (hp : data.length = k → Returns p accepts) :
    Returns (if data.length ≠ k then some (failure "InvalidMessageLength") else p)
      (data.length = k ∧ accepts) := by
  by_cases h : data.length = k
  · rw [if_neg (not_not.mpr h)]
    exact ⟨(hp h).returns, by rw [(hp h).ok_iff, and_iff_right h]⟩
  · rw [if_pos h]
    exact ⟨⟨_, rfl⟩, (error _).ok_iff.trans (iff_of_false not_false fun hc => h hc.1)⟩

/-- The fields every message starts with. -/
theorem header {f : U16 → U16 → U64 → Option (Result ItchMessage)} (h : 11 ≤ data.length)
    (hf : ∀ a b c, Returns (f a b c) accepts) :
    Returns (do
      let stockLocate ← readU16Be data 1
      let trackingNumber ← readU16Be data 3
      let timestampNanos ← readU48Be data 5
      f stockLocate trackingNumber timestampNanos) accepts := by
  refine bind (exists_readU16Be (by omega)) fun a => ?_
  refine bind (exists_readU16Be (by omega)) fun b => ?_
  exact bind (exists_readLoopBe (by omega)) fun c => hf a b c

/-- The byte of the side, which has to be one of two. -/
theorem sideByte {f : UInt8 → Option (Result ItchMessage)} (h : 19 < data.length)
    (hf : ∀ b, Returns (f b) True) :
    Returns (do
      let sideByte ← data[19]?
      if sideByte ≠ byteOf 'B' ∧ sideByte ≠ byteOf 'S' then
        pure (.error (.primitive .invalidSide "Invalid side byte in ITCH Add"))
      else f sideByte) (data[19]? = some (byteOf 'B') ∨ data[19]? = some (byteOf 'S')) := by
  obtain ⟨b, hb⟩ := exists_byte h
  rw [hb, Option.some.injEq, Option.some.injEq]
  by_cases hside : b ≠ byteOf 'B' ∧ b ≠ byteOf 'S'
  · have hfalse : ¬ (b = byteOf 'B' ∨ b = byteOf 'S') := not_or.mpr hside
    simp only [Option.bind_eq_bind, Option.bind_some, if_pos hside]
    exact ⟨⟨_, rfl⟩, (error _).ok_iff.trans (iff_of_false not_false hfalse)⟩
  · have htrue : b = byteOf 'B' ∨ b = byteOf 'S' := by
      by_contra h
      exact hside (not_or.mp h)
    simp only [Option.bind_eq_bind, Option.bind_some, if_neg hside]
    exact ⟨(hf b).returns, (hf b).ok_iff.trans (iff_of_true trivial htrue)⟩

end Returns

theorem parseSystemEvent_returns (data : List UInt8) :
    Returns (parseSystemEvent data) (data.length = 12 ∧ True) := by
  refine Returns.checked fun h => Returns.header (by omega) fun _ _ _ => ?_
  exact Returns.bind (exists_byte (by omega)) fun _ => Returns.ok _

theorem parseStockDirectory_returns (data : List UInt8) :
    Returns (parseStockDirectory data) (data.length = 39 ∧ True) := by
  refine Returns.checked fun h => Returns.bind (exists_copyBytes (by omega)) fun _ => ?_
  refine Returns.header (by omega) fun _ _ _ => ?_
  exact Returns.bind (exists_readU32Be (by omega)) fun _ => Returns.ok _

theorem parseAddOrder_returns (data : List UInt8) : Returns (parseAddOrder data)
    (data.length = 36 ∧ (data[19]? = some (byteOf 'B') ∨ data[19]? = some (byteOf 'S'))) := by
  refine Returns.checked fun h => Returns.sideByte (by omega) fun _ => ?_
  refine Returns.bind (exists_copyBytes (by omega)) fun _ => Returns.header (by omega) fun _ _ _ => ?_
  refine Returns.bind (exists_readLoopBe (by omega)) fun _ => ?_
  refine Returns.bind (exists_readU32Be (by omega)) fun _ => ?_
  exact Returns.bind (exists_readU32Be (by omega)) fun _ => Returns.ok _

theorem parseAddOrderAttributed_returns (data : List UInt8) : Returns (parseAddOrderAttributed data)
    (data.length = 40 ∧ (data[19]? = some (byteOf 'B') ∨ data[19]? = some (byteOf 'S'))) := by
  refine Returns.checked fun h => Returns.sideByte (by omega) fun _ => ?_
  refine Returns.bind (exists_copyBytes (by omega)) fun _ => ?_
  refine Returns.bind (exists_copyBytes (by omega)) fun _ => Returns.header (by omega) fun _ _ _ => ?_
  refine Returns.bind (exists_readLoopBe (by omega)) fun _ => ?_
  refine Returns.bind (exists_readU32Be (by omega)) fun _ => ?_
  exact Returns.bind (exists_readU32Be (by omega)) fun _ => Returns.ok _

theorem parseOrderExecuted_returns (data : List UInt8) :
    Returns (parseOrderExecuted data) (data.length = 31 ∧ True) := by
  refine Returns.checked fun h => Returns.header (by omega) fun _ _ _ => ?_
  refine Returns.bind (exists_readLoopBe (by omega)) fun _ => ?_
  refine Returns.bind (exists_readU32Be (by omega)) fun _ => ?_
  exact Returns.bind (exists_readLoopBe (by omega)) fun _ => Returns.ok _

theorem parseOrderExecutedWithPrice_returns (data : List UInt8) :
    Returns (parseOrderExecutedWithPrice data) (data.length = 36 ∧ True) := by
  refine Returns.checked fun h => Returns.header (by omega) fun _ _ _ => ?_
  refine Returns.bind (exists_readLoopBe (by omega)) fun _ => ?_
  refine Returns.bind (exists_readU32Be (by omega)) fun _ => ?_
  refine Returns.bind (exists_readLoopBe (by omega)) fun _ => ?_
  refine Returns.bind (exists_byte (by omega)) fun _ => ?_
  exact Returns.bind (exists_readU32Be (by omega)) fun _ => Returns.ok _

theorem parseOrderCancel_returns (data : List UInt8) :
    Returns (parseOrderCancel data) (data.length = 23 ∧ True) := by
  refine Returns.checked fun h => Returns.header (by omega) fun _ _ _ => ?_
  refine Returns.bind (exists_readLoopBe (by omega)) fun _ => ?_
  exact Returns.bind (exists_readU32Be (by omega)) fun _ => Returns.ok _

theorem parseOrderDelete_returns (data : List UInt8) :
    Returns (parseOrderDelete data) (data.length = 19 ∧ True) := by
  refine Returns.checked fun h => Returns.header (by omega) fun _ _ _ => ?_
  exact Returns.bind (exists_readLoopBe (by omega)) fun _ => Returns.ok _

theorem parseOrderReplace_returns (data : List UInt8) :
    Returns (parseOrderReplace data) (data.length = 35 ∧ True) := by
  refine Returns.checked fun h => Returns.header (by omega) fun _ _ _ => ?_
  refine Returns.bind (exists_readLoopBe (by omega)) fun _ => ?_
  refine Returns.bind (exists_readLoopBe (by omega)) fun _ => ?_
  refine Returns.bind (exists_readU32Be (by omega)) fun _ => ?_
  exact Returns.bind (exists_readU32Be (by omega)) fun _ => Returns.ok _

theorem Returns.dispatch {c a b : Prop} [Decidable c] {p q : Option (Result ItchMessage)}
    (hp : Returns p a) (hq : Returns q b) : Returns (if c then p else q) (if c then a else b) := by
  by_cases h : c
  · rw [if_pos h, if_pos h]
    exact hp
  · rw [if_neg h, if_neg h]
    exact hq

/-- The conditions of the cases, type by type. -/
def AcceptsTagged (tag : UInt8) (payload : List UInt8) : Prop :=
  if tag = byteOf 'S' then payload.length = 12 ∧ True
  else if tag = byteOf 'R' then payload.length = 39 ∧ True
  else if tag = byteOf 'A' then
    payload.length = 36 ∧ (payload[19]? = some (byteOf 'B') ∨ payload[19]? = some (byteOf 'S'))
  else if tag = byteOf 'F' then
    payload.length = 40 ∧ (payload[19]? = some (byteOf 'B') ∨ payload[19]? = some (byteOf 'S'))
  else if tag = byteOf 'E' then payload.length = 31 ∧ True
  else if tag = byteOf 'C' then payload.length = 36 ∧ True
  else if tag = byteOf 'X' then payload.length = 23 ∧ True
  else if tag = byteOf 'D' then payload.length = 19 ∧ True
  else if tag = byteOf 'U' then payload.length = 35 ∧ True
  else False

theorem parsePayload_cons (tag : UInt8) (t : List UInt8) : parsePayload (tag :: t) =
    if tag = byteOf 'S' then parseSystemEvent (tag :: t)
    else if tag = byteOf 'R' then parseStockDirectory (tag :: t)
    else if tag = byteOf 'A' then parseAddOrder (tag :: t)
    else if tag = byteOf 'F' then parseAddOrderAttributed (tag :: t)
    else if tag = byteOf 'E' then parseOrderExecuted (tag :: t)
    else if tag = byteOf 'C' then parseOrderExecutedWithPrice (tag :: t)
    else if tag = byteOf 'X' then parseOrderCancel (tag :: t)
    else if tag = byteOf 'D' then parseOrderDelete (tag :: t)
    else if tag = byteOf 'U' then parseOrderReplace (tag :: t)
    else some (failure "UnknownMessageType") := rfl

theorem parsePayload_returns (tag : UInt8) (t : List UInt8) :
    Returns (parsePayload (tag :: t)) (AcceptsTagged tag (tag :: t)) := by
  rw [parsePayload_cons, AcceptsTagged]
  refine Returns.dispatch (parseSystemEvent_returns _) ?_
  refine Returns.dispatch (parseStockDirectory_returns _) ?_
  refine Returns.dispatch (parseAddOrder_returns _) ?_
  refine Returns.dispatch (parseAddOrderAttributed_returns _) ?_
  refine Returns.dispatch (parseOrderExecuted_returns _) ?_
  refine Returns.dispatch (parseOrderExecutedWithPrice_returns _) ?_
  refine Returns.dispatch (parseOrderCancel_returns _) ?_
  refine Returns.dispatch (parseOrderDelete_returns _) ?_
  exact Returns.dispatch (parseOrderReplace_returns _) (Returns.error _)

theorem exists_parsePayload (payload : List UInt8) : ∃ r, parsePayload payload = some r := by
  cases payload with
  | nil => exact ⟨_, rfl⟩
  | cons tag t => exact (parsePayload_returns tag t).returns

theorem exists_parseMessage (slice : List UInt8) : ∃ r, parseMessage slice = some r := by
  unfold parseMessage
  split_ifs with h3
  · exact ⟨_, rfl⟩
  · refine exists_bind (exists_readU16Be (by omega)) fun length => ?_
    by_cases hlen : slice.length < 2 + (length : ℕ)
    · exact ⟨_, if_pos hlen⟩
    · simp only [if_neg hlen]
      refine exists_bind ⟨_, if_pos ⟨by omega, by omega⟩⟩ fun payload => ?_
      refine exists_bind (exists_parsePayload payload) fun r => ?_
      cases r with
      | error e => exact ⟨_, rfl⟩
      | ok msg => exact ⟨_, rfl⟩

/-! ## Frames -/

/-- The frames of an ITCH stream. -/
def itchFrames : LengthCode UInt8 where
  bound := 2 ^ 16
  width := 2
  encode := beBytes 2
  width_pos := by omega
  length_encode n := length_beBytes 2 n
  encode_inj hn hm h := beBytes_inj hn hm h

theorem parsePayload_nil : parsePayload [] = some (failure "UnexpectedEof") := rfl

theorem readU16Be_cons (b0 b1 : UInt8) (l : List UInt8) :
    ∃ v, readU16Be (b0 :: b1 :: l) 0 = some v ∧ (v : ℕ) = ofBytes [b0, b1] := by
  have hval := ofBytes_two b0 b1
  have hlt : ofBytes [b0, b1] < 2 ^ 16 := by
    have h0 := b0.toNat_lt
    have h1 := b1.toNat_lt
    rw [hval, shiftLeft_or]
    omega
  refine ⟨_, rfl, ?_⟩
  rw [Fin.val_ofNat, ← hval]
  exact Nat.mod_eq_of_lt hlt

/-- The two bytes in front of a payload. -/
theorem frame_eq_cons {payload : List UInt8} (h : payload.length < 2 ^ 16) :
    ∃ b0 b1, itchFrames.frame payload = b0 :: b1 :: payload ∧ ofBytes [b0, b1] = payload.length := by
  have hlen := length_beBytes 2 payload.length
  rcases hb : beBytes 2 payload.length with - | ⟨b0, - | ⟨b1, - | ⟨b2, l⟩⟩⟩
  · rw [hb] at hlen; cases hlen
  · rw [hb] at hlen; cases hlen
  · refine ⟨b0, b1, ?_, ?_⟩
    · show beBytes 2 payload.length ++ payload = _
      rw [hb]
      rfl
    · rw [← hb]
      exact ofBytes_beBytes (by omega)
  · rw [hb] at hlen; simp at hlen

/-- What `parse_message` does when the frame is there. -/
theorem parseMessage_cons {b0 b1 : UInt8} {t : List UInt8} (hne : t ≠ [])
    (hle : ofBytes [b0, b1] ≤ t.length) :
    parseMessage (b0 :: b1 :: t) = (parsePayload (t.take (ofBytes [b0, b1])) >>= fun r =>
      match r with
      | .error e => pure (failure e.message)
      | .ok msg => pure (.ok (msg, 2 + ofBytes [b0, b1]))) := by
  obtain ⟨v, hv, hval⟩ := readU16Be_cons b0 b1 t
  have hpos := List.length_pos_iff.mpr hne
  have h3 : ¬ (b0 :: b1 :: t).length < 3 := by rw [List.length_cons, List.length_cons]; omega
  have hlen : ¬ (b0 :: b1 :: t).length < 2 + (v : ℕ) := by
    rw [List.length_cons, List.length_cons]
    omega
  have hsub : subspan (b0 :: b1 :: t) 2 v = some (t.take v) := by
    rw [subspan, if_pos (by rw [List.length_cons, List.length_cons]; omega)]
    rfl
  rw [← hval, parseMessage, if_neg h3, hv]
  cases hp : parsePayload (t.take v) with
  | none => simp only [Option.bind_eq_bind, Option.bind_some, if_neg hlen, hsub, hp, Option.bind_none]
  | some r =>
    cases r <;> simp only [Option.bind_eq_bind, Option.bind_some, if_neg hlen, hsub, hp]

/-- A frame that is not there is reported. -/
theorem parseMessage_short {b0 b1 : UInt8} {t : List UInt8}
    (h : ¬ (t ≠ [] ∧ ofBytes [b0, b1] ≤ t.length)) :
    parseMessage (b0 :: b1 :: t) = some (failure "UnexpectedEof") := by
  obtain ⟨v, hv, hval⟩ := readU16Be_cons b0 b1 t
  unfold parseMessage
  by_cases hne : t = []
  · subst hne
    rfl
  · have hpos := List.length_pos_iff.mpr hne
    have h3 : ¬ (b0 :: b1 :: t).length < 3 := by rw [List.length_cons, List.length_cons]; omega
    have hlt : ¬ ofBytes [b0, b1] ≤ t.length := fun hle => h ⟨hne, hle⟩
    have hlen : (b0 :: b1 :: t).length < 2 + (v : ℕ) := by
      rw [List.length_cons, List.length_cons]
      omega
    rw [if_neg h3, hv]
    simp only [Option.bind_eq_bind, Option.bind_some, if_pos hlen]
    rfl

/-- A message is parsed off the front exactly when a frame with its payload is there. -/
theorem parseMessage_eq_ok {slice : List UInt8} {msg : ItchMessage} {consumed : ℕ} :
    parseMessage slice = some (.ok (msg, consumed)) ↔
      ∃ payload rest, slice = itchFrames.frame payload ++ rest ∧ payload.length < 2 ^ 16 ∧
        consumed = 2 + payload.length ∧ parsePayload payload = some (.ok msg) := by
  constructor
  · intro h
    rcases slice with - | ⟨b0, - | ⟨b1, t⟩⟩
    · cases h
    · cases h
    by_cases hfull : t ≠ [] ∧ ofBytes [b0, b1] ≤ t.length
    · rw [parseMessage_cons hfull.1 hfull.2, Option.bind_eq_bind, Option.bind_eq_some_iff] at h
      obtain ⟨r, hr, h⟩ := h
      cases r with
      | error e => cases h
      | ok m =>
        simp only [pure, Option.some.injEq, Except.ok.injEq, Prod.mk.injEq] at h
        obtain ⟨rfl, rfl⟩ := h
        have hlen : (t.take (ofBytes [b0, b1])).length = ofBytes [b0, b1] := by
          rw [List.length_take]
          omega
        have hlt : ofBytes [b0, b1] < 2 ^ 16 := by
          obtain ⟨v, -, hval⟩ := readU16Be_cons b0 b1 []
          rw [← hval]
          exact v.isLt
        refine ⟨t.take (ofBytes [b0, b1]), t.drop (ofBytes [b0, b1]), ?_, by omega, by omega, hr⟩
        have hhead : itchFrames.encode (ofBytes [b0, b1]) = [b0, b1] := beBytes_ofBytes [b0, b1]
        rw [LengthCode.frame, hlen, hhead, List.append_assoc, List.take_append_drop]
        rfl
    · rw [parseMessage_short hfull] at h
      cases h
  · rintro ⟨payload, rest, rfl, hlt, rfl, hp⟩
    obtain ⟨b0, b1, hframe, hlen⟩ := frame_eq_cons hlt
    have hne : payload ≠ [] := by
      rintro rfl
      rw [parsePayload_nil] at hp
      cases hp
    have hle : ofBytes [b0, b1] ≤ (payload ++ rest).length := by
      rw [hlen, List.length_append]
      omega
    rw [hframe, List.cons_append, List.cons_append, parseMessage_cons (by simp [hne]) hle, hlen,
      List.take_left', hp]
    · rfl
    · rfl

/-! ## Streams -/

/-- The stream consists of the frames of the payloads, and the payloads parse to the messages. -/
structure FramedMessages (stream : List UInt8) (payloads : List (List UInt8)) (ms : List ItchMessage) :
    Prop where
  stream_eq : stream = itchFrames.stream payloads
  length_lt : ∀ p ∈ payloads, p.length < 2 ^ 16
  parses : List.Forall₂ (fun p m => parsePayload p = some (.ok m)) payloads ms

/-- A stream that is not empty is cut up exactly when a message can be parsed off its front and the
rest is cut up. -/
theorem framedMessages_ne_nil {remaining : List UInt8} (hne : remaining ≠ []) {ms : List ItchMessage} :
    (∃ payloads, FramedMessages remaining payloads ms) ↔
      ∃ msg consumed, parseMessage remaining = some (.ok (msg, consumed)) ∧
        ∃ payloads ms', FramedMessages (remaining.drop consumed) payloads ms' ∧ ms = msg :: ms' := by
  constructor
  · rintro ⟨payloads, heq, hlts, hparse⟩
    cases hparse with
    | nil => exact absurd heq hne
    | @cons p msg ps ms' hpm hrest =>
      have hlt := hlts p (List.mem_cons_self ..)
      have hdrop : remaining.drop (2 + p.length) = itchFrames.stream ps := by
        rw [heq, LengthCode.stream_cons]
        exact List.drop_left' (itchFrames.length_frame p)
      exact ⟨msg, 2 + p.length, parseMessage_eq_ok.mpr ⟨p, itchFrames.stream ps, heq, hlt, rfl, hpm⟩,
        ps, ms', ⟨hdrop, fun q hq => hlts q (List.mem_cons_of_mem _ hq), hrest⟩, rfl⟩
  · rintro ⟨msg, consumed, h, ps, ms', ⟨hdrop, hlts, hparse⟩, rfl⟩
    obtain ⟨p, rest, rfl, hlt, rfl, hpm⟩ := parseMessage_eq_ok.mp h
    obtain rfl : rest = itchFrames.stream ps :=
      (List.drop_left' (itchFrames.length_frame p)).symm.trans hdrop
    refine ⟨p :: ps, rfl, fun q hq => ?_, hparse.cons hpm⟩
    rcases List.mem_cons.mp hq with rfl | hq
    · exact hlt
    · exact hlts q hq

/-- What the loop returns. The induction is on the bytes that remain. -/
theorem parseLoop_spec (messages : List ItchMessage) (remaining : List UInt8) :
    ∃ r, parseLoop messages remaining = some r ∧ ∀ ms, r = .ok ms ↔
      ∃ payloads ms', FramedMessages remaining payloads ms' ∧ ms = messages ++ ms' := by
  fun_induction parseLoop messages remaining with
  | case1 messages =>
    refine ⟨_, rfl, fun ms => ?_⟩
    rw [Except.ok.injEq]
    constructor
    · rintro rfl
      exact ⟨[], [], ⟨rfl, by simp, .nil⟩, by simp⟩
    · rintro ⟨payloads, ms', ⟨heq, -, hparse⟩, rfl⟩
      cases hparse with
      | nil => simp
      | @cons p _ ps _ _ _ => exact absurd heq.symm (itchFrames.frame_append_ne_nil p _)
  | case2 messages remaining hne h =>
    obtain ⟨r, hr⟩ := exists_parseMessage remaining
    rw [h] at hr
    cases hr
  | case3 messages remaining hne e h =>
    refine ⟨_, rfl, fun ms => ?_⟩
    constructor
    · intro hok
      cases hok
    · rintro ⟨payloads, ms', hframed, rfl⟩
      obtain ⟨msg, consumed, hok, -⟩ := (framedMessages_ne_nil hne).mp ⟨payloads, hframed⟩
      rw [h] at hok
      cases hok
  | case4 messages remaining hne msg consumed h hrest =>
    rw [subspanFrom, if_pos (parseMessage_consumed h).2] at hrest
    cases hrest
  | case5 messages remaining hne msg consumed h rest hrest hlt ih =>
    rw [subspanFrom, if_pos (parseMessage_consumed h).2, Option.some.injEq] at hrest
    subst hrest
    obtain ⟨r, hr, hspec⟩ := ih
    refine ⟨r, hr, fun ms => (hspec ms).trans ?_⟩
    constructor
    · rintro ⟨payloads, ms', hframed, rfl⟩
      obtain ⟨ps, hps⟩ :=
        (framedMessages_ne_nil hne).mpr ⟨msg, consumed, h, payloads, ms', hframed, rfl⟩
      exact ⟨ps, msg :: ms', hps, by simp⟩
    · rintro ⟨payloads, ms', hframed, rfl⟩
      obtain ⟨msg', consumed', h', ps, ms'', hps, rfl⟩ :=
        (framedMessages_ne_nil hne).mp ⟨payloads, hframed⟩
      rw [h] at h'
      simp only [Option.some.injEq, Except.ok.injEq, Prod.mk.injEq] at h'
      obtain ⟨rfl, rfl⟩ := h'
      exact ⟨ps, ms'', hps, by simp⟩

/-- **Framing is parsed exactly.** On every stream the parser returns without a read outside of it. It
returns messages exactly when the stream is a sequence of frames with payloads that parse to them, and
an error otherwise; the frames are determined by the stream; and every message that is parsed takes at
least one byte off what remains. -/
theorem parseStream_exact (stream : List UInt8) :
    (∃ r, parseStream stream = some r) ∧
    (∀ ms, parseStream stream = some (.ok ms) ↔ ∃ payloads, FramedMessages stream payloads ms) ∧
    ((∀ ms payloads, ¬ FramedMessages stream payloads ms) →
      ∃ e, parseStream stream = some (.error e)) ∧
    (∀ ps qs, (∀ p ∈ ps, p.length < 2 ^ 16) → (∀ q ∈ qs, q.length < 2 ^ 16) →
      stream = itchFrames.stream ps → stream = itchFrames.stream qs → ps = qs) ∧
    ∀ remaining msg consumed, parseMessage remaining = some (.ok (msg, consumed)) →
      1 ≤ consumed ∧ consumed ≤ remaining.length := by
  obtain ⟨r, hr, hspec⟩ := parseLoop_spec [] stream
  have hok : ∀ ms, r = .ok ms ↔ ∃ payloads, FramedMessages stream payloads ms := by
    intro ms
    rw [hspec]
    constructor
    · rintro ⟨payloads, ms', hframed, rfl⟩
      exact ⟨payloads, hframed⟩
    · rintro ⟨payloads, hframed⟩
      exact ⟨payloads, ms, hframed, rfl⟩
  refine ⟨⟨r, hr⟩, fun ms => ?_, fun hno => ?_, fun ps qs hps hqs h h' => ?_, fun rem msg c h => ?_⟩
  · rw [parseStream, hr, Option.some.injEq]
    exact hok ms
  · cases r with
    | error e => exact ⟨e, hr⟩
    | ok ms =>
      obtain ⟨payloads, hframed⟩ := (hok ms).mp rfl
      exact absurd hframed (hno ms payloads)
  · exact LengthCode.stream_inj hps hqs (h.symm.trans h')
  · have := parseMessage_consumed h
    omega

end ItchStreamParser

end FairCross
