import FairCross.MarketData.Book
import FairCross.MarketData.Parser

/-!
# The replay engine

`marketdata/replay.hpp`, `marketdata/replay.cpp`, `marketdata/bridge.hpp` and the in-memory source of
`marketdata/packet_source.hpp`. As with the book, a member function returns the engine it leaves behind
together with its result. Reads outside the buffer are `none`.
-/

namespace FairCross

/-- The best bid and offer after one message. -/
structure BboQuote where
  bestBid : Option Price
  bestAsk : Option Price
  midPrice : Option Price
  timestampNanos : U64
deriving DecidableEq

/-- The quote of a book. -/
def OrderBook.bbo (b : OrderBook) : BboQuote :=
  { bestBid := b.bestBid, bestAsk := b.bestAsk, midPrice := b.midPrice,
    timestampNanos := b.lastTimestampNanos }

/-! ## The packet source -/

/-- `SlicePacketSource`: a buffer and how far it has been read. -/
structure SlicePacketSource where
  buffer : List UInt8
  cursor : ℕ

namespace SlicePacketSource

def remaining (s : SlicePacketSource) : ℕ :=
  if s.cursor ≥ s.buffer.length then 0 else s.buffer.length - s.cursor

theorem remaining_eq (s : SlicePacketSource) : s.remaining = s.buffer.length - s.cursor := by
  unfold remaining
  split_ifs <;> omega

/-- The next message, or `none` at the end of the buffer. -/
def nextMessage (s : SlicePacketSource) : Option (SlicePacketSource × Result (Option ItchMessage)) :=
  if s.remaining = 0 then some (s, .ok none)
  else do
    let slice ← subspanFrom s.buffer s.cursor
    match ← ItchStreamParser.parseMessage slice with
    | .error e => pure (s, failure e.message)
    | .ok (msg, consumed) => pure ({ s with cursor := s.cursor + consumed }, .ok (some msg))

/-- Behind a message there is less to read. -/
theorem nextMessage_shrinks {s s' : SlicePacketSource} {msg : ItchMessage}
    (h : s.nextMessage = some (s', .ok (some msg))) : s'.remaining < s.remaining := by
  unfold nextMessage at h
  split_ifs at h with h0
  · cases h
  · simp only [Option.bind_eq_bind, Option.bind_eq_some_iff] at h
    obtain ⟨slice, hslice, r, hr, h⟩ := h
    cases r with
    | error e => cases h
    | ok m =>
      obtain ⟨m, consumed⟩ := m
      simp only [pure, Option.some.injEq, Prod.mk.injEq] at h
      obtain ⟨rfl, -⟩ := h
      have hle := ItchStreamParser.parseMessage_consumed hr
      have hs := s.remaining_eq
      have hs' : remaining { s with cursor := s.cursor + consumed } =
          s.buffer.length - (s.cursor + consumed) := remaining_eq _
      omega

end SlicePacketSource

/-! ## The engine -/

structure ItchReplayEngine where
  book : OrderBook
  bboHistory : List BboQuote
deriving DecidableEq

namespace ItchReplayEngine

/-- The engine a default constructor makes. -/
def empty : ItchReplayEngine := ⟨.empty, []⟩

/-- Apply one message and record the quote. -/
def step (e : ItchReplayEngine) (msg : ItchMessage) : ItchReplayEngine × Result BboQuote :=
  match e.book.applyMessage msg with
  | (book, .error err) => ({ e with book := book }, failure err.message)
  | (book, .ok ()) => ({ book := book, bboHistory := e.bboHistory ++ [book.bbo] }, .ok book.bbo)

def replayMessages (e : ItchReplayEngine) : List ItchMessage → ItchReplayEngine × Result Unit
  | [] => (e, .ok ())
  | msg :: messages =>
    match e.step msg with
    | (e, .error err) => (e, failure err.message)
    | (e, .ok _) => e.replayMessages messages

/-- The loop of `replay_stream`. -/
def replayLoop (e : ItchReplayEngine) (source : SlicePacketSource) :
    Option (ItchReplayEngine × Result Unit) :=
  match h : source.nextMessage with
  | none => none
  | some (_, .error err) => some (e, failure err.message)
  | some (_, .ok none) => some (e, .ok ())
  | some (source', .ok (some msg)) =>
    match e.step msg with
    | (e, .error err) => some (e, failure err.message)
    | (e, .ok _) =>
      have : source'.remaining < source.remaining := SlicePacketSource.nextMessage_shrinks h
      replayLoop e source'
termination_by source.remaining

def replayStream (e : ItchReplayEngine) (stream : List UInt8) :
    Option (ItchReplayEngine × Result Unit) :=
  e.replayLoop ⟨stream, 0⟩

end ItchReplayEngine

/-! ## Reference prices from a book -/

/-- `OracleBridge::snapshot_from_book`. -/
def OracleBridge.snapshotFromBook (book : OrderBook) (oracleId : U32) (instrumentId : InstrumentId)
    (timestampNanos sequence : U64) : Option ReferencePriceSnapshot :=
  match book.midPrice with
  | none => none
  | some mid => some ⟨oracleId, instrumentId, mid, timestampNanos, sequence⟩

def ItchReplayEngine.currentReferencePriceSnapshot (e : ItchReplayEngine) (oracleId : U32)
    (instrumentId : InstrumentId) (sequence : U64) : Option ReferencePriceSnapshot :=
  OracleBridge.snapshotFromBook e.book oracleId instrumentId e.book.lastTimestampNanos sequence

end FairCross
