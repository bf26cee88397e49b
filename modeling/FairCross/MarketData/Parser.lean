import FairCross.MarketData.Messages

/-!
# The ITCH parser

`marketdata/parser.hpp` and `marketdata/parser.cpp`. The source reads through a pointer and cuts
sub-spans, neither of which is checked. Here every read and every cut is an `Option`, which is `none`
outside the bytes that were handed in.
-/

namespace FairCross

/-- `subspan(offset, count)`, which may not reach past the end. -/
def subspan (bytes : List UInt8) (offset count : ℕ) : Option (List UInt8) :=
  if offset ≤ bytes.length ∧ count ≤ bytes.length - offset then
    some ((bytes.drop offset).take count)
  else none

/-- `subspan(offset)`, all that follows `offset`. -/
def subspanFrom (bytes : List UInt8) (offset : ℕ) : Option (List UInt8) :=
  if offset ≤ bytes.length then some (bytes.drop offset) else none

/-- `std::copy(data + first, data + first + N, array.begin())`. -/
def copyBytes (n : ℕ) (data : List UInt8) (first : ℕ) : Option (ByteArrayN n) :=
  if h : first + n ≤ data.length then
    some ⟨(data.drop first).take n, by rw [List.length_take, List.length_drop]; omega⟩
  else none

/-- The loop `val = (val << 8) | bytes[i]` over `n` bytes. -/
def readLoopBe (n : ℕ) (data : List UInt8) (offset : ℕ) : Option U64 :=
  (List.range n).foldlM (fun val i => do
    let byte ← data[offset + i]?
    pure (toU64 ((val : ℕ) <<< 8 ||| byte.toNat))) 0

def readU48Be (data : List UInt8) (offset : ℕ) : Option U64 := readLoopBe 6 data offset

def readU64Be (data : List UInt8) (offset : ℕ) : Option U64 := readLoopBe 8 data offset

def readU16Be (data : List UInt8) (offset : ℕ) : Option U16 := do
  let b0 ← data[offset]?
  let b1 ← data[offset + 1]?
  pure (Fin.ofNat _ (b0.toNat <<< 8 ||| b1.toNat))

def readU32Be (data : List UInt8) (offset : ℕ) : Option U32 := do
  let b0 ← data[offset]?
  let b1 ← data[offset + 1]?
  let b2 ← data[offset + 2]?
  let b3 ← data[offset + 3]?
  pure (Fin.ofNat _ (b0.toNat <<< 24 ||| b1.toNat <<< 16 ||| b2.toNat <<< 8 ||| b3.toNat))

/-- A character constant of the format. -/
def byteOf (c : Char) : UInt8 := UInt8.ofNat c.toNat

namespace ItchStreamParser

/-! ## One case for each tag -/

def parseSystemEvent (data : List UInt8) : Option (Result ItchMessage) :=
  if data.length ≠ 12 then some (failure "InvalidMessageLength")
  else do
    let stockLocate ← readU16Be data 1
    let trackingNumber ← readU16Be data 3
    let timestampNanos ← readU48Be data 5
    let eventCode ← data[11]?
    pure (.ok (.systemEvent { stockLocate, trackingNumber, timestampNanos, eventCode }))

def parseStockDirectory (data : List UInt8) : Option (Result ItchMessage) :=
  if data.length ≠ 39 then some (failure "InvalidMessageLength")
  else do
    let symbol ← copyBytes 8 data 11
    let stockLocate ← readU16Be data 1
    let trackingNumber ← readU16Be data 3
    let timestampNanos ← readU48Be data 5
    let roundLotSize ← readU32Be data 21
    pure (.ok (.stockDirectory
      { stockLocate, trackingNumber, timestampNanos, symbol, roundLotSize }))

/-- The side byte of an add order message. -/
def sideOfByte (byte : UInt8) : Side :=
  if byte = byteOf 'B' then .buy else if byte = byteOf 'S' then .sell else .buy

def parseAddOrder (data : List UInt8) : Option (Result ItchMessage) :=
  if data.length ≠ 36 then some (failure "InvalidMessageLength")
  else do
    let sideByte ← data[19]?
    let side := sideOfByte sideByte
    if sideByte ≠ byteOf 'B' ∧ sideByte ≠ byteOf 'S' then
      pure (.error (.primitive .invalidSide "Invalid side byte in ITCH Add"))
    else do
      let symbol ← copyBytes 8 data 24
      let stockLocate ← readU16Be data 1
      let trackingNumber ← readU16Be data 3
      let timestampNanos ← readU48Be data 5
      let orderReferenceNumber ← readU64Be data 11
      let shares ← readU32Be data 20
      let priceTicks ← readU32Be data 32
      pure (.ok (.addOrder { stockLocate, trackingNumber, timestampNanos, orderReferenceNumber, side,
                             shares, symbol, priceTicks, attribution := none }))

def parseAddOrderAttributed (data : List UInt8) : Option (Result ItchMessage) :=
  if data.length ≠ 40 then some (failure "InvalidMessageLength")
  else do
    let sideByte ← data[19]?
    let side := sideOfByte sideByte
    if sideByte ≠ byteOf 'B' ∧ sideByte ≠ byteOf 'S' then
      pure (.error (.primitive .invalidSide "Invalid side byte in ITCH Add"))
    else do
      let symbol ← copyBytes 8 data 24
      let attr ← copyBytes 4 data 36
      let stockLocate ← readU16Be data 1
      let trackingNumber ← readU16Be data 3
      let timestampNanos ← readU48Be data 5
      let orderReferenceNumber ← readU64Be data 11
      let shares ← readU32Be data 20
      let priceTicks ← readU32Be data 32
      pure (.ok (.addOrder { stockLocate, trackingNumber, timestampNanos, orderReferenceNumber, side,
                             shares, symbol, priceTicks, attribution := some attr }))

def parseOrderExecuted (data : List UInt8) : Option (Result ItchMessage) :=
  if data.length ≠ 31 then some (failure "InvalidMessageLength")
  else do
    let stockLocate ← readU16Be data 1
    let trackingNumber ← readU16Be data 3
    let timestampNanos ← readU48Be data 5
    let orderReferenceNumber ← readU64Be data 11
    let executedShares ← readU32Be data 19
    let matchNumber ← readU64Be data 23
    pure (.ok (.orderExecuted { stockLocate, trackingNumber, timestampNanos, orderReferenceNumber,
                                executedShares, matchNumber }))

def parseOrderExecutedWithPrice (data : List UInt8) : Option (Result ItchMessage) :=
  if data.length ≠ 36 then some (failure "InvalidMessageLength")
  else do
    let stockLocate ← readU16Be data 1
    let trackingNumber ← readU16Be data 3
    let timestampNanos ← readU48Be data 5
    let orderReferenceNumber ← readU64Be data 11
    let executedShares ← readU32Be data 19
    let matchNumber ← readU64Be data 23
    let printable ← data[31]?
    let executionPriceTicks ← readU32Be data 32
    pure (.ok (.orderExecutedWithPrice
      { stockLocate, trackingNumber, timestampNanos, orderReferenceNumber, executedShares, matchNumber,
        printable := printable = byteOf 'Y', executionPriceTicks }))

def parseOrderCancel (data : List UInt8) : Option (Result ItchMessage) :=
  if data.length ≠ 23 then some (failure "InvalidMessageLength")
  else do
    let stockLocate ← readU16Be data 1
    let trackingNumber ← readU16Be data 3
    let timestampNanos ← readU48Be data 5
    let orderReferenceNumber ← readU64Be data 11
    let canceledShares ← readU32Be data 19
    pure (.ok (.orderCancel
      { stockLocate, trackingNumber, timestampNanos, orderReferenceNumber, canceledShares }))

def parseOrderDelete (data : List UInt8) : Option (Result ItchMessage) :=
  if data.length ≠ 19 then some (failure "InvalidMessageLength")
  else do
    let stockLocate ← readU16Be data 1
    let trackingNumber ← readU16Be data 3
    let timestampNanos ← readU48Be data 5
    let orderReferenceNumber ← readU64Be data 11
    pure (.ok (.orderDelete { stockLocate, trackingNumber, timestampNanos, orderReferenceNumber }))

def parseOrderReplace (data : List UInt8) : Option (Result ItchMessage) :=
  if data.length ≠ 35 then some (failure "InvalidMessageLength")
  else do
    let stockLocate ← readU16Be data 1
    let trackingNumber ← readU16Be data 3
    let timestampNanos ← readU48Be data 5
    let originalOrderReferenceNumber ← readU64Be data 11
    let newOrderReferenceNumber ← readU64Be data 19
    let shares ← readU32Be data 27
    let priceTicks ← readU32Be data 31
    pure (.ok (.orderReplace
      { stockLocate, trackingNumber, timestampNanos, originalOrderReferenceNumber,
        newOrderReferenceNumber, shares, priceTicks }))

/-! ## Payloads, frames and streams -/

def parsePayload (payload : List UInt8) : Option (Result ItchMessage) :=
  if payload = [] then some (failure "UnexpectedEof")
  else do
    let tag ← payload[0]?
    if tag = byteOf 'S' then parseSystemEvent payload
    else if tag = byteOf 'R' then parseStockDirectory payload
    else if tag = byteOf 'A' then parseAddOrder payload
    else if tag = byteOf 'F' then parseAddOrderAttributed payload
    else if tag = byteOf 'E' then parseOrderExecuted payload
    else if tag = byteOf 'C' then parseOrderExecutedWithPrice payload
    else if tag = byteOf 'X' then parseOrderCancel payload
    else if tag = byteOf 'D' then parseOrderDelete payload
    else if tag = byteOf 'U' then parseOrderReplace payload
    else pure (failure "UnknownMessageType")

/-- The first message of `slice`, with the number of bytes its frame takes. -/
def parseMessage (slice : List UInt8) : Option (Result (ItchMessage × ℕ)) :=
  if slice.length < 3 then some (failure "UnexpectedEof")
  else do
    let length ← readU16Be slice 0
    let totalFrameLen := 2 + (length : ℕ)
    if slice.length < totalFrameLen then pure (failure "UnexpectedEof")
    else do
      let payload ← subspan slice 2 length
      match ← parsePayload payload with
      | .error e => pure (failure e.message)
      | .ok msg => pure (.ok (msg, totalFrameLen))

/-- A parsed frame is not empty, and lies inside the slice. -/
theorem parseMessage_consumed {slice : List UInt8} {msg : ItchMessage} {consumed : ℕ}
    (h : parseMessage slice = some (.ok (msg, consumed))) :
    2 ≤ consumed ∧ consumed ≤ slice.length := by
  unfold parseMessage at h
  split_ifs at h with h3
  · cases h
  · simp only [Option.bind_eq_bind, Option.bind_eq_some_iff] at h
    obtain ⟨length, -, h⟩ := h
    split_ifs at h with hlen
    · cases h
    · simp only [Option.bind_eq_some_iff] at h
      obtain ⟨payload, -, r, -, h⟩ := h
      cases r with
      | error e => cases h
      | ok m =>
        simp only [pure, Option.some.injEq, Except.ok.injEq, Prod.mk.injEq] at h
        omega

/-- Behind a parsed frame there is less to parse. -/
theorem parseMessage_shrinks {slice rest : List UInt8} {msg : ItchMessage} {consumed : ℕ}
    (h : parseMessage slice = some (.ok (msg, consumed)))
    (hrest : subspanFrom slice consumed = some rest) : rest.length < slice.length := by
  obtain ⟨h2, hle⟩ := parseMessage_consumed h
  rw [subspanFrom, if_pos hle, Option.some.injEq] at hrest
  rw [← hrest, List.length_drop]
  omega

/-- The loop of `parse_stream`. -/
def parseLoop (messages : List ItchMessage) (remaining : List UInt8) :
    Option (Result (List ItchMessage)) :=
  if remaining = [] then some (.ok messages)
  else
    match h : parseMessage remaining with
    | none => none
    | some (.error e) => some (failure e.message)
    | some (.ok (msg, consumed)) =>
      match hrest : subspanFrom remaining consumed with
      | none => none
      | some rest =>
        have : rest.length < remaining.length := parseMessage_shrinks h hrest
        parseLoop (messages ++ [msg]) rest
termination_by remaining.length

def parseStream (stream : List UInt8) : Option (Result (List ItchMessage)) := parseLoop [] stream

end ItchStreamParser

end FairCross
