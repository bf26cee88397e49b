import FairCross.MarketData.Replay
import FairCross.MarketData.Proofs.PayloadProofs

/-!
# Replaying a stream

The replay engine reads messages one by one through a cursor and applies each before it reads the next.
It does what parsing the stream first and replaying the messages does; on a malformed stream, what
replaying the messages in front of the malformed frame does.
-/

namespace FairCross

open ItchStreamParser

/-! ## Quotes -/

/-- The quotes of a replay from a book: one for every message that is applied, with the book's best bid
and offer behind it. The replay ends with the messages or at a message that is rejected. -/
inductive Quotes : OrderBook → List ItchMessage → List BboQuote → Prop where
  | done (b : OrderBook) : Quotes b [] []
  | rejected {b b' : OrderBook} {msg : ItchMessage} {ms : List ItchMessage} {err : Error}
      (h : b.applyMessage msg = (b', .error err)) : Quotes b (msg :: ms) []
  | applied {b b' : OrderBook} {msg : ItchMessage} {ms : List ItchMessage} {quotes : List BboQuote}
      (h : b.applyMessage msg = (b', .ok ())) (hrest : Quotes b' ms quotes) :
      Quotes b (msg :: ms) (b'.bbo :: quotes)

namespace ItchReplayEngine

/-- What a step leaves: either the message is applied and quoted, or it is rejected. -/
theorem step_cases (e : ItchReplayEngine) (msg : ItchMessage) :
    (∃ b', e.book.applyMessage msg = (b', .ok ()) ∧
      e.step msg = (⟨b', e.bboHistory ++ [b'.bbo]⟩, .ok b'.bbo)) ∨
    (∃ b' err, e.book.applyMessage msg = (b', .error err) ∧
      e.step msg = (⟨b', e.bboHistory⟩, failure err.message)) := by
  unfold step
  rcases h : e.book.applyMessage msg with ⟨b', err | u⟩
  · exact .inr ⟨b', err, rfl, rfl⟩
  · exact .inl ⟨b', rfl, rfl⟩

theorem replayMessages_quotes (e : ItchReplayEngine) (ms : List ItchMessage) :
    ∃ quotes, (e.replayMessages ms).1.bboHistory = e.bboHistory ++ quotes ∧ Quotes e.book ms quotes := by
  induction ms generalizing e with
  | nil => exact ⟨[], (List.append_nil _).symm, .done _⟩
  | cons msg ms ih =>
    rw [replayMessages]
    rcases e.step_cases msg with ⟨b', happly, hstep⟩ | ⟨b', err, happly, hstep⟩
    · obtain ⟨quotes, hhist, hquotes⟩ := ih ⟨b', e.bboHistory ++ [b'.bbo]⟩
      rw [hstep]
      exact ⟨b'.bbo :: quotes, by rw [hhist, List.append_assoc, List.singleton_append],
        .applied happly hquotes⟩
    · rw [hstep]
      exact ⟨[], (List.append_nil _).symm, .rejected happly⟩

end ItchReplayEngine

/-! ## The source -/

/-- What the source hands out next, from what is left of the buffer. -/
theorem SlicePacketSource.nextMessage_eq (s : SlicePacketSource) : s.nextMessage =
    if s.buffer.drop s.cursor = [] then some (s, .ok none)
    else parseMessage (s.buffer.drop s.cursor) >>= fun r =>
      match r with
      | .error e => some (s, failure e.message)
      | .ok (msg, consumed) => some ({ s with cursor := s.cursor + consumed }, .ok (some msg)) := by
  unfold nextMessage remaining subspanFrom
  by_cases h : s.buffer.length ≤ s.cursor
  · rw [if_pos (List.drop_eq_nil_of_le h), if_pos h]
    rfl
  · have hne : s.buffer.drop s.cursor ≠ [] := by rwa [ne_eq, List.drop_eq_nil_iff]
    rw [if_neg h, if_neg hne, if_neg (by omega), if_pos (by omega)]
    rfl

/-! ## Reading a stream to its end -/

/-- Both loops read the messages of a stream one after another, up to its end or to an error. -/
inductive FrameRun : List UInt8 → List ItchMessage → Option Error → Prop where
  | done : FrameRun [] [] none
  | malformed {remaining : List UInt8} {err : Error} (hne : remaining ≠ [])
      (h : parseMessage remaining = some (.error err)) : FrameRun remaining [] (some err)
  | message {remaining : List UInt8} {msg : ItchMessage} {consumed : ℕ} {ms : List ItchMessage}
      {stop : Option Error} (hne : remaining ≠ [])
      (h : parseMessage remaining = some (.ok (msg, consumed)))
      (hrest : FrameRun (remaining.drop consumed) ms stop) : FrameRun remaining (msg :: ms) stop

theorem exists_frameRun (stream : List UInt8) : ∃ ms stop, FrameRun stream ms stop := by
  induction hlen : stream.length using Nat.strongRecOn generalizing stream with
  | _ n ih =>
    by_cases hne : stream = []
    · subst hne
      exact ⟨[], none, .done⟩
    · obtain ⟨r, hr⟩ := exists_parseMessage stream
      cases r with
      | error err => exact ⟨[], some err, .malformed hne hr⟩
      | ok m =>
        obtain ⟨msg, consumed⟩ := m
        have hle := parseMessage_consumed hr
        obtain ⟨ms, stop, hrun⟩ := ih (stream.drop consumed).length
          (by rw [List.length_drop]; omega) _ rfl
        exact ⟨msg :: ms, stop, .message hne hr hrun⟩

/-- One turn of the parsing loop. -/
theorem parseLoop_turn {remaining : List UInt8} (hne : remaining ≠ []) (acc : List ItchMessage) :
    parseLoop acc remaining = parseMessage remaining >>= fun r =>
      match r with
      | .error err => some (failure err.message)
      | .ok (msg, consumed) => parseLoop (acc ++ [msg]) (remaining.drop consumed) := by
  rw [parseLoop, if_neg hne]
  split
  · next h =>
    rw [h]
    rfl
  · next err h =>
    rw [h]
    rfl
  · next msg consumed h =>
    have hrest : subspanFrom remaining consumed = some (remaining.drop consumed) :=
      if_pos (parseMessage_consumed h).2
    split
    · next hnone =>
      rw [hrest] at hnone
      cases hnone
    · next rest hsome =>
      rw [hrest, Option.some.injEq] at hsome
      subst hsome
      dsimp only
      rw [h]
      rfl

/-- One turn of the replay loop. -/
theorem replayLoop_turn (e : ItchReplayEngine) (source : SlicePacketSource) :
    e.replayLoop source = source.nextMessage >>= fun r =>
      match r with
      | (_, .error err) => some (e, failure err.message)
      | (_, .ok none) => some (e, .ok ())
      | (source', .ok (some msg)) =>
        match e.step msg with
        | (e', .error err) => some (e', failure err.message)
        | (e', .ok _) => e'.replayLoop source' := by
  rw [ItchReplayEngine.replayLoop]
  split
  · next h =>
    rw [h]
    rfl
  · next h =>
    rw [h]
    rfl
  · next h =>
    rw [h]
    rfl
  · next source' msg h =>
    dsimp only
    rw [h]
    rfl

/-- What a loop returns at the end of its run. -/
def endResult {α : Type} (a : α) : Option Error → Result α
  | none => .ok a
  | some err => failure err.message

/-- What parsing makes of the run. -/
theorem FrameRun.parseLoop_eq {remaining : List UInt8} {ms : List ItchMessage} {stop : Option Error}
    (h : FrameRun remaining ms stop) (acc : List ItchMessage) :
    parseLoop acc remaining = some (endResult (acc ++ ms) stop) := by
  induction h generalizing acc with
  | done =>
    rw [parseLoop, if_pos rfl, List.append_nil]
    rfl
  | malformed hne h =>
    rw [parseLoop_turn hne, h]
    rfl
  | @message remaining msg consumed ms stop hne h hrest ih =>
    rw [parseLoop_turn hne, h]
    show parseLoop (acc ++ [msg]) (remaining.drop consumed) = _
    rw [ih, List.append_assoc, List.singleton_append]

/-- What the replay makes of the run: the messages are replayed, and if all are applied the run ends as
it does. -/
theorem FrameRun.replayLoop_eq {remaining : List UInt8} {ms : List ItchMessage} {stop : Option Error}
    (h : FrameRun remaining ms stop) (e : ItchReplayEngine) {source : SlicePacketSource}
    (hsource : source.buffer.drop source.cursor = remaining) : e.replayLoop source =
      some (match e.replayMessages ms with
        | (e', .error err) => (e', .error err)
        | (e', .ok ()) => (e', endResult () stop)) := by
  induction h generalizing e source with
  | done =>
    rw [replayLoop_turn, source.nextMessage_eq, if_pos hsource]
    rfl
  | malformed hne h =>
    rw [replayLoop_turn, source.nextMessage_eq, if_neg (by rwa [hsource]), hsource, h]
    rfl
  | @message remaining msg consumed ms stop hne h hrest ih =>
    rw [replayLoop_turn, source.nextMessage_eq, if_neg (by rwa [hsource]), hsource, h]
    have hdrop : source.buffer.drop (source.cursor + consumed) = remaining.drop consumed := by
      rw [← hsource, List.drop_drop]
    rcases e.step_cases msg with ⟨b', -, hstep⟩ | ⟨b', err, -, hstep⟩
    · have hrec := @ih ⟨b', e.bboHistory ++ [b'.bbo]⟩ ⟨source.buffer, source.cursor + consumed⟩ hdrop
      simp only [Option.bind_eq_bind, Option.bind_some, ItchReplayEngine.replayMessages, hstep]
      exact hrec
    · simp only [Option.bind_eq_bind, Option.bind_some, ItchReplayEngine.replayMessages, hstep, failure]

/-! ## The longest sequence of frames -/

/-- `front` is the longest part at the front of the stream that consists of frames with payloads that
parse, and `ms` are its messages. -/
structure LongestFrames (stream front : List UInt8) (ms : List ItchMessage) : Prop where
  initial : front <+: stream
  framed : ∃ payloads, FramedMessages front payloads ms
  longest : ∀ front' payloads ms', front' <+: stream → FramedMessages front' payloads ms' →
    front'.length ≤ front.length

theorem framedMessages_unique {front : List UInt8} {ps ps' : List (List UInt8)} {ms ms' : List ItchMessage}
    (h : FramedMessages front ps ms) (h' : FramedMessages front ps' ms') : ms = ms' := by
  obtain ⟨r, -, hspec⟩ := parseLoop_spec [] front
  have h1 : r = .ok ms := (hspec ms).mpr ⟨ps, ms, h, rfl⟩
  have h2 : r = .ok ms' := (hspec ms').mpr ⟨ps', ms', h', rfl⟩
  exact Except.ok.inj (h1.symm.trans h2)

theorem LongestFrames.unique {stream front front' : List UInt8} {ms ms' : List ItchMessage}
    (h : LongestFrames stream front ms) (h' : LongestFrames stream front' ms') : ms = ms' := by
  obtain ⟨ps, hps⟩ := h.framed
  obtain ⟨ps', hps'⟩ := h'.framed
  have hlen := le_antisymm (h'.longest _ _ _ h.initial hps) (h.longest _ _ _ h'.initial hps')
  have hfront : front = front' :=
    (List.prefix_of_prefix_length_le h.initial h'.initial hlen.le).eq_of_length hlen
  subst hfront
  exact framedMessages_unique hps hps'

/-- A sequence of frames at the front of a stream that begins with a message is empty or begins with
the message. -/
theorem framedMessages_message {remaining front : List UInt8} {msg : ItchMessage} {consumed : ℕ}
    (h : parseMessage remaining = some (.ok (msg, consumed))) (hfront : front <+: remaining)
    {ps : List (List UInt8)} {ms : List ItchMessage} (hframed : FramedMessages front ps ms) :
    front = [] ∨ ∃ front' ps' ms', front = remaining.take consumed ++ front' ∧
      front' <+: remaining.drop consumed ∧ FramedMessages front' ps' ms' := by
  by_cases hne : front = []
  · exact .inl hne
  · obtain ⟨msg', consumed', h', ps', ms', hrest, -⟩ := (framedMessages_ne_nil hne).mp ⟨ps, hframed⟩
    obtain ⟨t, rfl⟩ := hfront
    obtain ⟨p, rest, hp, hlt, hc, -⟩ := parseMessage_eq_ok.mp h
    obtain ⟨p', rest', rfl, hlt', hc', -⟩ := parseMessage_eq_ok.mp h'
    rw [List.append_assoc] at hp
    obtain ⟨rfl, rfl⟩ := LengthCode.frame_append_inj hlt' hlt hp
    have hlen : (itchFrames.frame p').length = consumed := by
      rw [hc]
      exact itchFrames.length_frame p'
    rw [hc', ← hc, List.drop_left' hlen] at hrest
    refine .inr ⟨rest', ps', ms', ?_, ?_, hrest⟩
    · rw [List.append_assoc, List.take_left' hlen]
    · rw [List.append_assoc, List.drop_left' hlen]
      exact List.prefix_append _ _

/-- The messages of a run are those of the longest sequence of frames, which is the whole stream unless
the run ends with an error. -/
theorem FrameRun.longest {stream : List UInt8} {ms : List ItchMessage} {stop : Option Error}
    (h : FrameRun stream ms stop) :
    ∃ front, LongestFrames stream front ms ∧ (stop = none → front = stream) := by
  have hnil : FramedMessages [] [] [] := ⟨rfl, by simp, .nil⟩
  induction h with
  | done =>
    refine ⟨[], ⟨List.prefix_rfl, ⟨[], hnil⟩, fun front' _ _ hfront _ => hfront.length_le⟩, fun _ => rfl⟩
  | @malformed remaining err hne h =>
    refine ⟨[], ⟨List.nil_prefix, ⟨[], hnil⟩, fun front' ps ms' hfront hframed => ?_⟩, fun hs => ?_⟩
    · by_cases hne' : front' = []
      · rw [hne']
      · obtain ⟨msg, consumed, h', -⟩ := (framedMessages_ne_nil hne').mp ⟨ps, hframed⟩
        obtain ⟨t, rfl⟩ := hfront
        obtain ⟨p, rest, rfl, hlt, hc, hp⟩ := parseMessage_eq_ok.mp h'
        have hwhole : parseMessage (itchFrames.frame p ++ rest ++ t) = some (.ok (msg, consumed)) :=
          parseMessage_eq_ok.mpr ⟨p, rest ++ t, List.append_assoc .., hlt, hc, hp⟩
        rw [h] at hwhole
        cases hwhole
    · cases hs
  | @message remaining msg consumed ms stop hne h hrest ih =>
    obtain ⟨front, ⟨hinit, ⟨ps, hps⟩, hlongest⟩, hall⟩ := ih
    have hle := (parseMessage_consumed h).2
    have htake : (remaining.take consumed).length = consumed := List.length_take_of_le hle
    refine ⟨remaining.take consumed ++ front, ⟨?_, ?_, fun front' ps' ms' hfront hframed => ?_⟩,
      fun hs => by rw [hall hs, List.take_append_drop]⟩
    · obtain ⟨t, ht⟩ := hinit
      exact ⟨t, by rw [List.append_assoc, ht, List.take_append_drop]⟩
    · obtain ⟨p, rest, rfl, hlt, rfl, hp⟩ := parseMessage_eq_ok.mp h
      have hlen : (itchFrames.frame p).length = 2 + p.length := itchFrames.length_frame p
      rw [List.take_left' hlen]
      refine ⟨p :: ps, by rw [LengthCode.stream_cons, ← hps.stream_eq], fun q hq => ?_, hps.parses.cons hp⟩
      rcases List.mem_cons.mp hq with rfl | hq
      · exact hlt
      · exact hps.length_lt q hq
    · rcases framedMessages_message h hfront hframed with rfl | ⟨t, ps'', ms'', rfl, ht, hframed'⟩
      · exact Nat.zero_le _
      · rw [List.length_append, List.length_append]
        exact Nat.add_le_add_left (hlongest t ps'' ms'' ht hframed') _

/-- **Replay of a stream.** When the stream parses, replaying it and replaying its messages are the
same. When it does not, the replay leaves what the messages of the longest sequence of frames leave,
and returns an error. The history grows by the quotes of the messages that are applied. -/
theorem replayStream_exact (e : ItchReplayEngine) (stream : List UInt8) :
    (∀ ms, parseStream stream = some (.ok ms) → e.replayStream stream = some (e.replayMessages ms)) ∧
    (∀ err, parseStream stream = some (.error err) → (∃ front ms, LongestFrames stream front ms) ∧
      ∀ front ms, LongestFrames stream front ms →
        ∃ err', e.replayStream stream = some ((e.replayMessages ms).1, .error err')) ∧
    (∀ ms, ∃ quotes, (e.replayMessages ms).1.bboHistory = e.bboHistory ++ quotes ∧
      Quotes e.book ms quotes) ∧
    ∃ front ms e' r quotes, LongestFrames stream front ms ∧ e.replayStream stream = some (e', r) ∧
      e'.bboHistory = e.bboHistory ++ quotes ∧ Quotes e.book ms quotes := by
  obtain ⟨ms, stop, hrun⟩ := exists_frameRun stream
  obtain ⟨front, hlongest, -⟩ := hrun.longest
  have hparse : parseStream stream = some (endResult ms stop) := hrun.parseLoop_eq []
  have hreplay := @FrameRun.replayLoop_eq stream ms stop hrun e ⟨stream, 0⟩ rfl
  refine ⟨fun ms' h => ?_, fun err h => ⟨⟨front, ms, hlongest⟩, fun front' ms' h' => ?_⟩,
    e.replayMessages_quotes, ?_⟩
  · cases stop with
    | some err => rw [hparse] at h; cases h
    | none =>
      obtain rfl : ms = ms' := by
        rw [hparse] at h
        exact Except.ok.inj (Option.some.inj h)
      rw [ItchReplayEngine.replayStream, hreplay]
      rcases e.replayMessages ms with ⟨e', err | u⟩
      · rfl
      · rfl
  · obtain rfl := hlongest.unique h'
    cases stop with
    | none => rw [hparse] at h; cases h
    | some err' =>
      rw [ItchReplayEngine.replayStream, hreplay]
      rcases e.replayMessages ms with ⟨e', err'' | u⟩
      · exact ⟨err'', rfl⟩
      · exact ⟨_, rfl⟩
  · obtain ⟨quotes, hhist, hquotes⟩ := e.replayMessages_quotes ms
    rcases hr : e.replayMessages ms with ⟨e', err | u⟩
    · rw [hr] at hreplay hhist
      exact ⟨front, ms, e', _, quotes, hlongest, hreplay, hhist, hquotes⟩
    · rw [hr] at hreplay hhist
      exact ⟨front, ms, e', _, quotes, hlongest, hreplay, hhist, hquotes⟩

end FairCross
