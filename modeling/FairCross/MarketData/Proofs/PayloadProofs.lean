import FairCross.MarketData.Proofs.ParserProofs

/-!
# The wire format of ITCH messages

`encode` writes a message in the format of its type: fixed offsets, big-endian integers. The parser
reads back what was written, whatever stands in the bytes it skips.
-/

namespace FairCross

open BigEndian

/-! ## Fields at offsets

A field stands at an offset when what is left from there begins with its bytes. -/

section Fields

variable {data rest field : List UInt8} {offset k : ℕ}

/-- Behind a field. -/
theorem drop_field (h : data.drop offset = field ++ rest) (hk : field.length = k) :
    data.drop (offset + k) = rest := by
  rw [← List.drop_drop, h, ← hk, List.drop_left]

theorem getElem?_of_drop {byte : UInt8} (h : data.drop offset = byte :: rest) :
    data[offset]? = some byte := by
  have := congrArg (·[0]?) h
  simpa using this

theorem getElem?_field (h : data.drop offset = field ++ rest) (i : ℕ) (hi : i < field.length) :
    data[offset + i]? = some field[i] := by
  rw [← List.getElem?_drop, h, List.getElem?_append_left hi, List.getElem?_eq_getElem hi]

theorem toU64_shift (n : ℕ) (byte : UInt8) :
    toU64 ((toU64 n : ℕ) <<< 8 ||| byte.toNat) = toU64 (n * 256 + byte.toNat) := by
  apply Fin.ext
  rw [shiftLeft_or, toU64_val, toU64_val, toU64_val]
  omega

theorem readLoopBe_field {n v : ℕ} (h : data.drop offset = beBytes n v ++ rest) (hv : v < 256 ^ n) :
    readLoopBe n data offset = some (toU64 v) := by
  -- the loop reads the bytes of the field one by one
  have hloop : ∀ m ≤ n, (List.range m).foldlM (fun (val : U64) i => do
      let byte ← data[offset + i]?
      pure (toU64 ((val : ℕ) <<< 8 ||| byte.toNat))) 0 = some (toU64 (ofBytes ((beBytes n v).take m))) := by
    intro m hm
    induction m with
    | zero => rfl
    | succ m ih =>
      have hlen : m < (beBytes n v).length := by rw [length_beBytes]; omega
      rw [List.range_succ, List.foldlM_append, ih (by omega), List.take_succ_eq_append_getElem hlen,
        ofBytes_append_singleton, ← toU64_shift]
      simp only [Option.bind_eq_bind, Option.bind_some, List.foldlM_cons, List.foldlM_nil,
        getElem?_field h m hlen]
      rfl
  have hall := hloop n le_rfl
  rwa [List.take_of_length_le (length_beBytes n v).le, ofBytes_beBytes hv] at hall

theorem readU48Be_field {v : U64} (h : data.drop offset = beBytes 6 v ++ rest) (hv : (v : ℕ) < 2 ^ 48) :
    readU48Be data offset = some v := by
  rw [readU48Be, readLoopBe_field h (by omega), toU64_coe]

theorem readU64Be_field {v : U64} (h : data.drop offset = beBytes 8 v ++ rest) :
    readU64Be data offset = some v := by
  rw [readU64Be, readLoopBe_field h v.isLt, toU64_coe]

theorem readU16Be_field {v : U16} (h : data.drop offset = beBytes 2 v ++ rest) :
    readU16Be data offset = some v := by
  have hv := ofBytes_beBytes (k := 2) v.isLt
  obtain ⟨b0, b1, hb⟩ := List.length_eq_two.mp (length_beBytes 2 (v : ℕ))
  rw [hb] at h hv
  have h0 := getElem?_field h 0 (by simp)
  have h1 := getElem?_field h 1 (by simp)
  show (do
    let b0 ← data[offset + 0]?
    let b1 ← data[offset + 1]?
    pure (Fin.ofNat _ (b0.toNat <<< 8 ||| b1.toNat))) = some v
  rw [h0, h1]
  show some (Fin.ofNat _ (b0.toNat <<< 8 ||| b1.toNat)) = some v
  rw [← ofBytes_two, hv]
  exact congrArg some (Fin.ext (Nat.mod_eq_of_lt v.isLt))

theorem readU32Be_field {v : U32} (h : data.drop offset = beBytes 4 v ++ rest) :
    readU32Be data offset = some v := by
  have hv := ofBytes_beBytes (k := 4) v.isLt
  obtain ⟨b0, b1, b2, b3, hb⟩ := List.length_eq_four.mp (length_beBytes 4 (v : ℕ))
  rw [hb] at h hv
  have h0 := getElem?_field h 0 (by simp)
  have h1 := getElem?_field h 1 (by simp)
  have h2 := getElem?_field h 2 (by simp)
  have h3 := getElem?_field h 3 (by simp)
  show (do
    let b0 ← data[offset + 0]?
    let b1 ← data[offset + 1]?
    let b2 ← data[offset + 2]?
    let b3 ← data[offset + 3]?
    pure (Fin.ofNat _ (b0.toNat <<< 24 ||| b1.toNat <<< 16 ||| b2.toNat <<< 8 ||| b3.toNat))) = some v
  rw [h0, h1, h2, h3]
  show some (Fin.ofNat _ (b0.toNat <<< 24 ||| b1.toNat <<< 16 ||| b2.toNat <<< 8 ||| b3.toNat)) = some v
  rw [← ofBytes_four, hv]
  exact congrArg some (Fin.ext (Nat.mod_eq_of_lt v.isLt))

theorem copyBytes_field {n : ℕ} {a : ByteArrayN n} (h : data.drop offset = a.bytes ++ rest) (hn : 0 < n) :
    copyBytes n data offset = some a := by
  have hlen := congrArg List.length h
  rw [List.length_drop, List.length_append, a.size] at hlen
  unfold copyBytes
  rw [dif_pos (by omega), Option.some.injEq]
  have htake : (data.drop offset).take n = a.bytes := by
    rw [h]
    exact List.take_left' a.size
  cases a
  simpa using htake

end Fields

namespace ItchStreamParser

/-! ## The format -/

/-- What a payload holds besides the fields of its message: the bytes of a directory message that are
skipped, and the byte of an execution that is not printable. -/
structure SkippedBytes where
  category : ByteArrayN 2
  directoryTail : ByteArrayN 14
  nonPrintable : UInt8
  nonPrintable_ne : nonPrintable ≠ byteOf 'Y'

/-- The type, the fields every message starts with, and the fields of the type. -/
def encodeFields (tag : Char) (stockLocate trackingNumber : U16) (timestampNanos : U64)
    (fields : List (List UInt8)) : List UInt8 :=
  ([byteOf tag] :: beBytes 2 stockLocate :: beBytes 2 trackingNumber :: beBytes 6 timestampNanos ::
    fields).flatten

def encodeSide (side : Side) : UInt8 := if side = .buy then byteOf 'B' else byteOf 'S'

/-- The payload of a message. An add order with attribution has a type of its own. -/
def encode (skipped : SkippedBytes) : ItchMessage → List UInt8
  | .systemEvent m => encodeFields 'S' m.stockLocate m.trackingNumber m.timestampNanos
      [[m.eventCode]]
  | .stockDirectory m => encodeFields 'R' m.stockLocate m.trackingNumber m.timestampNanos
      [m.symbol.bytes, skipped.category.bytes, beBytes 4 m.roundLotSize, skipped.directoryTail.bytes]
  | .addOrder m =>
    match m.attribution with
    | none => encodeFields 'A' m.stockLocate m.trackingNumber m.timestampNanos
        [beBytes 8 m.orderReferenceNumber, [encodeSide m.side], beBytes 4 m.shares, m.symbol.bytes,
          beBytes 4 m.priceTicks]
    | some attr => encodeFields 'F' m.stockLocate m.trackingNumber m.timestampNanos
        [beBytes 8 m.orderReferenceNumber, [encodeSide m.side], beBytes 4 m.shares, m.symbol.bytes,
          beBytes 4 m.priceTicks, attr.bytes]
  | .orderExecuted m => encodeFields 'E' m.stockLocate m.trackingNumber m.timestampNanos
      [beBytes 8 m.orderReferenceNumber, beBytes 4 m.executedShares, beBytes 8 m.matchNumber]
  | .orderExecutedWithPrice m => encodeFields 'C' m.stockLocate m.trackingNumber m.timestampNanos
      [beBytes 8 m.orderReferenceNumber, beBytes 4 m.executedShares, beBytes 8 m.matchNumber,
        [if m.printable then byteOf 'Y' else skipped.nonPrintable], beBytes 4 m.executionPriceTicks]
  | .orderCancel m => encodeFields 'X' m.stockLocate m.trackingNumber m.timestampNanos
      [beBytes 8 m.orderReferenceNumber, beBytes 4 m.canceledShares]
  | .orderDelete m => encodeFields 'D' m.stockLocate m.trackingNumber m.timestampNanos
      [beBytes 8 m.orderReferenceNumber]
  | .orderReplace m => encodeFields 'U' m.stockLocate m.trackingNumber m.timestampNanos
      [beBytes 8 m.originalOrderReferenceNumber, beBytes 8 m.newOrderReferenceNumber,
        beBytes 4 m.shares, beBytes 4 m.priceTicks]

/-- The messages that the format has room for. -/
structure Encodable (msg : ItchMessage) : Prop where
  timestamp : (msg.timestampNanos : ℕ) < 2 ^ 48
  side : ∀ m, msg = .addOrder m → m.side = .buy ∨ m.side = .sell

/-! ## Decoding -/

section Decoding

variable {tag : Char} {stockLocate trackingNumber : U16} {timestampNanos : U64}
  {fields : List (List UInt8)}

theorem length_encodeFields :
    (encodeFields tag stockLocate trackingNumber timestampNanos fields).length =
      11 + fields.flatten.length := by
  simp [encodeFields]
  omega

/-- The fields every message starts with are read back, and the others follow at offset 11. -/
theorem encodeFields_reads (h : (timestampNanos : ℕ) < 2 ^ 48) {data : List UInt8}
    (hdata : data = encodeFields tag stockLocate trackingNumber timestampNanos fields) :
    readU16Be data 1 = some stockLocate ∧ readU16Be data 3 = some trackingNumber ∧
      readU48Be data 5 = some timestampNanos ∧ data.drop 11 = fields.flatten := by
  have h0 : data.drop 0 = [byteOf tag] ++ _ := hdata
  have h1 : data.drop 1 = _ := drop_field h0 rfl
  have h3 : data.drop 3 = _ := drop_field h1 (length_beBytes 2 _)
  have h5 : data.drop 5 = _ := drop_field h3 (length_beBytes 2 _)
  have h11 : data.drop 11 = _ := drop_field h5 (length_beBytes 6 _)
  exact ⟨readU16Be_field h1, readU16Be_field h3, readU48Be_field h5 h, h11⟩

variable {skipped : SkippedBytes} {data : List UInt8}

theorem parseSystemEvent_encode {m : SystemEventMessage} (h : (m.timestampNanos : ℕ) < 2 ^ 48)
    (hdata : data = encode skipped (.systemEvent m)) :
    parseSystemEvent data = some (.ok (.systemEvent m)) := by
  obtain ⟨h1, h3, h5, h11⟩ := encodeFields_reads h hdata
  have hlen : data.length = 12 := by
    rw [hdata, encode, length_encodeFields]
    rfl
  have hcode : data[11]? = some m.eventCode := getElem?_of_drop h11
  rw [parseSystemEvent, if_neg (not_not.mpr hlen), h1, h3, h5, hcode]
  rfl

theorem parseStockDirectory_encode {m : StockDirectoryMessage} (h : (m.timestampNanos : ℕ) < 2 ^ 48)
    (hdata : data = encode skipped (.stockDirectory m)) :
    parseStockDirectory data = some (.ok (.stockDirectory m)) := by
  obtain ⟨h1, h3, h5, h11⟩ := encodeFields_reads h hdata
  have hlen : data.length = 39 := by
    rw [hdata, encode, length_encodeFields]
    simp [m.symbol.size, skipped.category.size, skipped.directoryTail.size]
  have h19 : data.drop 19 = _ := drop_field h11 m.symbol.size
  have h21 : data.drop 21 = _ := drop_field h19 skipped.category.size
  rw [parseStockDirectory, if_neg (not_not.mpr hlen), copyBytes_field h11 (by omega), h1, h3, h5,
    readU32Be_field h21]
  rfl

theorem sideOfByte_encodeSide {side : Side} (h : side = .buy ∨ side = .sell) :
    sideOfByte (encodeSide side) = side ∧
      ¬ (encodeSide side ≠ byteOf 'B' ∧ encodeSide side ≠ byteOf 'S') := by
  rcases h with rfl | rfl
  · exact ⟨rfl, fun hs => hs.1 rfl⟩
  · exact ⟨rfl, fun hs => hs.2 rfl⟩

theorem parseAddOrder_encode {m : AddOrderMessage} (h : (m.timestampNanos : ℕ) < 2 ^ 48)
    (hside : m.side = .buy ∨ m.side = .sell) (hattr : m.attribution = none)
    (hdata : data = encode skipped (.addOrder m)) :
    parseAddOrder data = some (.ok (.addOrder m)) := by
  simp only [encode, hattr] at hdata
  obtain ⟨h1, h3, h5, h11⟩ := encodeFields_reads h hdata
  obtain ⟨hread, hvalid⟩ := sideOfByte_encodeSide hside
  have hlen : data.length = 36 := by
    rw [hdata, length_encodeFields]
    simp [m.symbol.size]
  have h19 : data.drop 19 = _ := drop_field h11 (length_beBytes 8 _)
  have h20 : data.drop 20 = _ := drop_field h19 rfl
  have h24 : data.drop 24 = _ := drop_field h20 (length_beBytes 4 _)
  have h32 : data.drop 32 = _ := drop_field h24 m.symbol.size
  have hbyte : data[19]? = some (encodeSide m.side) := getElem?_of_drop h19
  rw [parseAddOrder, if_neg (not_not.mpr hlen), hbyte]
  simp only [Option.bind_eq_bind, Option.bind_some, if_neg hvalid, hread, copyBytes_field h24 (by omega),
    h1, h3, h5, readU64Be_field h11, readU32Be_field h20, readU32Be_field h32, ← hattr]
  rfl

theorem parseAddOrderAttributed_encode {m : AddOrderMessage} (h : (m.timestampNanos : ℕ) < 2 ^ 48)
    (hside : m.side = .buy ∨ m.side = .sell) {attr : ByteArrayN 4} (hattr : m.attribution = some attr)
    (hdata : data = encode skipped (.addOrder m)) :
    parseAddOrderAttributed data = some (.ok (.addOrder m)) := by
  simp only [encode, hattr] at hdata
  obtain ⟨h1, h3, h5, h11⟩ := encodeFields_reads h hdata
  obtain ⟨hread, hvalid⟩ := sideOfByte_encodeSide hside
  have hlen : data.length = 40 := by
    rw [hdata, length_encodeFields]
    simp [m.symbol.size, attr.size]
  have h19 : data.drop 19 = _ := drop_field h11 (length_beBytes 8 _)
  have h20 : data.drop 20 = _ := drop_field h19 rfl
  have h24 : data.drop 24 = _ := drop_field h20 (length_beBytes 4 _)
  have h32 : data.drop 32 = _ := drop_field h24 m.symbol.size
  have h36 : data.drop 36 = _ := drop_field h32 (length_beBytes 4 _)
  have hbyte : data[19]? = some (encodeSide m.side) := getElem?_of_drop h19
  rw [parseAddOrderAttributed, if_neg (not_not.mpr hlen), hbyte]
  simp only [Option.bind_eq_bind, Option.bind_some, if_neg hvalid, hread, copyBytes_field h24 (by omega),
    copyBytes_field h36 (by omega), h1, h3, h5, readU64Be_field h11, readU32Be_field h20,
    readU32Be_field h32]
  rw [← hattr]
  rfl

theorem parseOrderExecuted_encode {m : OrderExecutedMessage} (h : (m.timestampNanos : ℕ) < 2 ^ 48)
    (hdata : data = encode skipped (.orderExecuted m)) :
    parseOrderExecuted data = some (.ok (.orderExecuted m)) := by
  obtain ⟨h1, h3, h5, h11⟩ := encodeFields_reads h hdata
  have hlen : data.length = 31 := by
    rw [hdata, encode, length_encodeFields]
    simp
  have h19 : data.drop 19 = _ := drop_field h11 (length_beBytes 8 _)
  have h23 : data.drop 23 = _ := drop_field h19 (length_beBytes 4 _)
  rw [parseOrderExecuted, if_neg (not_not.mpr hlen), h1, h3, h5, readU64Be_field h11,
    readU32Be_field h19, readU64Be_field h23]
  rfl

theorem parseOrderExecutedWithPrice_encode {m : OrderExecutedWithPriceMessage}
    (h : (m.timestampNanos : ℕ) < 2 ^ 48) (hdata : data = encode skipped (.orderExecutedWithPrice m)) :
    parseOrderExecutedWithPrice data = some (.ok (.orderExecutedWithPrice m)) := by
  obtain ⟨h1, h3, h5, h11⟩ := encodeFields_reads h hdata
  have hlen : data.length = 36 := by
    rw [hdata, encode, length_encodeFields]
    simp
  have h19 : data.drop 19 = _ := drop_field h11 (length_beBytes 8 _)
  have h23 : data.drop 23 = _ := drop_field h19 (length_beBytes 4 _)
  have h31 : data.drop 31 = _ := drop_field h23 (length_beBytes 8 _)
  have h32 : data.drop 32 = _ := drop_field h31 rfl
  have hbyte := getElem?_of_drop h31
  have hprintable : decide ((if m.printable then byteOf 'Y' else skipped.nonPrintable) = byteOf 'Y') =
      m.printable := by
    cases m.printable with
    | true => rfl
    | false => exact decide_eq_false skipped.nonPrintable_ne
  rw [parseOrderExecutedWithPrice, if_neg (not_not.mpr hlen), h1, h3, h5, readU64Be_field h11,
    readU32Be_field h19, readU64Be_field h23, hbyte, readU32Be_field h32]
  simp only [Option.bind_eq_bind, Option.bind_some, hprintable]
  rfl

theorem parseOrderCancel_encode {m : OrderCancelMessage} (h : (m.timestampNanos : ℕ) < 2 ^ 48)
    (hdata : data = encode skipped (.orderCancel m)) :
    parseOrderCancel data = some (.ok (.orderCancel m)) := by
  obtain ⟨h1, h3, h5, h11⟩ := encodeFields_reads h hdata
  have hlen : data.length = 23 := by
    rw [hdata, encode, length_encodeFields]
    simp
  have h19 : data.drop 19 = _ := drop_field h11 (length_beBytes 8 _)
  rw [parseOrderCancel, if_neg (not_not.mpr hlen), h1, h3, h5, readU64Be_field h11, readU32Be_field h19]
  rfl

theorem parseOrderDelete_encode {m : OrderDeleteMessage} (h : (m.timestampNanos : ℕ) < 2 ^ 48)
    (hdata : data = encode skipped (.orderDelete m)) :
    parseOrderDelete data = some (.ok (.orderDelete m)) := by
  obtain ⟨h1, h3, h5, h11⟩ := encodeFields_reads h hdata
  have hlen : data.length = 19 := by
    rw [hdata, encode, length_encodeFields]
    simp
  rw [parseOrderDelete, if_neg (not_not.mpr hlen), h1, h3, h5, readU64Be_field h11]
  rfl

theorem parseOrderReplace_encode {m : OrderReplaceMessage} (h : (m.timestampNanos : ℕ) < 2 ^ 48)
    (hdata : data = encode skipped (.orderReplace m)) :
    parseOrderReplace data = some (.ok (.orderReplace m)) := by
  obtain ⟨h1, h3, h5, h11⟩ := encodeFields_reads h hdata
  have hlen : data.length = 35 := by
    rw [hdata, encode, length_encodeFields]
    simp
  have h19 : data.drop 19 = _ := drop_field h11 (length_beBytes 8 _)
  have h27 : data.drop 27 = _ := drop_field h19 (length_beBytes 8 _)
  have h31 : data.drop 31 = _ := drop_field h27 (length_beBytes 4 _)
  rw [parseOrderReplace, if_neg (not_not.mpr hlen), h1, h3, h5, readU64Be_field h11, readU64Be_field h19,
    readU32Be_field h27, readU32Be_field h31]
  rfl

end Decoding

theorem parsePayload_encodeFields {tag : Char} {a b : U16} {c : U64} {fields : List (List UInt8)}
    {data : List UInt8} (hdata : data = encodeFields tag a b c fields) : parsePayload data =
      if byteOf tag = byteOf 'S' then parseSystemEvent data
      else if byteOf tag = byteOf 'R' then parseStockDirectory data
      else if byteOf tag = byteOf 'A' then parseAddOrder data
      else if byteOf tag = byteOf 'F' then parseAddOrderAttributed data
      else if byteOf tag = byteOf 'E' then parseOrderExecuted data
      else if byteOf tag = byteOf 'C' then parseOrderExecutedWithPrice data
      else if byteOf tag = byteOf 'X' then parseOrderCancel data
      else if byteOf tag = byteOf 'D' then parseOrderDelete data
      else if byteOf tag = byteOf 'U' then parseOrderReplace data
      else some (failure "UnknownMessageType") := by
  subst hdata
  exact parsePayload_cons _ _

/-- A payload that encodes a message is parsed to the message. -/
theorem parsePayload_encode (skipped : SkippedBytes) {msg : ItchMessage} (h : Encodable msg) :
    parsePayload (encode skipped msg) = some (.ok msg) := by
  obtain ⟨hts, hside⟩ := h
  generalize hdata : encode skipped msg = data
  replace hdata := hdata.symm
  cases msg with
  | systemEvent m =>
    rw [parsePayload_encodeFields hdata, if_pos rfl]
    exact parseSystemEvent_encode hts hdata
  | stockDirectory m =>
    rw [parsePayload_encodeFields hdata, if_neg (by decide), if_pos rfl]
    exact parseStockDirectory_encode hts hdata
  | addOrder m =>
    have hside := hside m rfl
    cases hattr : m.attribution with
    | none =>
      have hfields := hdata
      simp only [encode, hattr] at hfields
      rw [parsePayload_encodeFields hfields, if_neg (by decide), if_neg (by decide), if_pos rfl]
      exact parseAddOrder_encode hts hside hattr hdata
    | some attr =>
      have hfields := hdata
      simp only [encode, hattr] at hfields
      rw [parsePayload_encodeFields hfields, if_neg (by decide), if_neg (by decide), if_neg (by decide),
        if_pos rfl]
      exact parseAddOrderAttributed_encode hts hside hattr hdata
  | orderExecuted m =>
    rw [parsePayload_encodeFields hdata, if_neg (by decide), if_neg (by decide), if_neg (by decide),
      if_neg (by decide), if_pos rfl]
    exact parseOrderExecuted_encode hts hdata
  | orderExecutedWithPrice m =>
    rw [parsePayload_encodeFields hdata, if_neg (by decide), if_neg (by decide), if_neg (by decide),
      if_neg (by decide), if_neg (by decide), if_pos rfl]
    exact parseOrderExecutedWithPrice_encode hts hdata
  | orderCancel m =>
    rw [parsePayload_encodeFields hdata, if_neg (by decide), if_neg (by decide), if_neg (by decide),
      if_neg (by decide), if_neg (by decide), if_neg (by decide), if_pos rfl]
    exact parseOrderCancel_encode hts hdata
  | orderDelete m =>
    rw [parsePayload_encodeFields hdata, if_neg (by decide), if_neg (by decide), if_neg (by decide),
      if_neg (by decide), if_neg (by decide), if_neg (by decide), if_neg (by decide), if_pos rfl]
    exact parseOrderDelete_encode hts hdata
  | orderReplace m =>
    rw [parsePayload_encodeFields hdata, if_neg (by decide), if_neg (by decide), if_neg (by decide),
      if_neg (by decide), if_neg (by decide), if_neg (by decide), if_neg (by decide), if_neg (by decide),
      if_pos rfl]
    exact parseOrderReplace_encode hts hdata

/-! ## Acceptance -/

/-- The types of messages, each with the length of its payloads. -/
def messageTypes : List (Char × ℕ) :=
  [('S', 12), ('R', 39), ('A', 36), ('F', 40), ('E', 31), ('C', 36), ('X', 23), ('D', 19), ('U', 35)]

/-- The payload has the length of its type; an add order also has a byte that names a side. -/
structure HasFormat (payload : List UInt8) (tag : Char) (length : ℕ) : Prop where
  head : payload.head? = some (byteOf tag)
  length_eq : payload.length = length
  side : tag = 'A' ∨ tag = 'F' → payload[19]? = some (byteOf 'B') ∨ payload[19]? = some (byteOf 'S')

theorem acceptsTagged_iff (tag : UInt8) (t : List UInt8) : AcceptsTagged tag (tag :: t) ↔
    ∃ p ∈ messageTypes, HasFormat (tag :: t) p.1 p.2 := by
  constructor
  · intro h
    unfold AcceptsTagged at h
    split_ifs at h with hS hR hA hF hE hC hX hD hU
    · exact ⟨('S', 12), by decide, congrArg some hS, h.1, fun hc => absurd hc (by decide)⟩
    · exact ⟨('R', 39), by decide, congrArg some hR, h.1, fun hc => absurd hc (by decide)⟩
    · exact ⟨('A', 36), by decide, congrArg some hA, h.1, fun _ => h.2⟩
    · exact ⟨('F', 40), by decide, congrArg some hF, h.1, fun _ => h.2⟩
    · exact ⟨('E', 31), by decide, congrArg some hE, h.1, fun hc => absurd hc (by decide)⟩
    · exact ⟨('C', 36), by decide, congrArg some hC, h.1, fun hc => absurd hc (by decide)⟩
    · exact ⟨('X', 23), by decide, congrArg some hX, h.1, fun hc => absurd hc (by decide)⟩
    · exact ⟨('D', 19), by decide, congrArg some hD, h.1, fun hc => absurd hc (by decide)⟩
    · exact ⟨('U', 35), by decide, congrArg some hU, h.1, fun hc => absurd hc (by decide)⟩
  · rintro ⟨⟨c, k⟩, hp, hhead, hlen, hside⟩
    obtain rfl : tag = byteOf c := Option.some.inj hhead
    simp only [messageTypes, List.mem_cons, Prod.mk.injEq, List.not_mem_nil, or_false] at hp
    rcases hp with ⟨rfl, rfl⟩ | ⟨rfl, rfl⟩ | ⟨rfl, rfl⟩ | ⟨rfl, rfl⟩ | ⟨rfl, rfl⟩ | ⟨rfl, rfl⟩ |
      ⟨rfl, rfl⟩ | ⟨rfl, rfl⟩ | ⟨rfl, rfl⟩
    · exact ⟨hlen, trivial⟩
    · exact ⟨hlen, trivial⟩
    · exact ⟨hlen, hside (.inl rfl)⟩
    · exact ⟨hlen, hside (.inr rfl)⟩
    · exact ⟨hlen, trivial⟩
    · exact ⟨hlen, trivial⟩
    · exact ⟨hlen, trivial⟩
    · exact ⟨hlen, trivial⟩
    · exact ⟨hlen, trivial⟩

/-- **Decoding inverts the format.** A payload in the format of its message is parsed to the message,
and the parser returns a message exactly on the payloads that have one of the nine formats. -/
theorem parsePayload_exact :
    (∀ skipped msg, Encodable msg → parsePayload (encode skipped msg) = some (.ok msg)) ∧
    ∀ payload, (∃ msg, parsePayload payload = some (.ok msg)) ↔
      ∃ p ∈ messageTypes, HasFormat payload p.1 p.2 := by
  refine ⟨fun skipped msg h => parsePayload_encode skipped h, fun payload => ?_⟩
  cases payload with
  | nil =>
    refine iff_of_false ?_ ?_
    · rintro ⟨msg, h⟩
      cases h
    · rintro ⟨p, -, h⟩
      cases h.head
  | cons tag t => exact (parsePayload_returns tag t).ok_iff.trans (acceptsTagged_iff tag t)

/-- An order of eight lots at three hundred, added at the last nanosecond of the clock. -/
theorem parsePayload_exact_example : ∃ payload msg, payload.length = 36 ∧
    parsePayload payload = some (.ok (.addOrder msg)) ∧ (msg.timestampNanos : ℕ) = 2 ^ 48 - 1 := by
  refine ⟨_, _, ?_, parsePayload_exact.1 ⟨⟨[0, 0], rfl⟩, ⟨List.replicate 14 0, rfl⟩, 0, by decide⟩
    (.addOrder ⟨1, 2, 2 ^ 48 - 1, 77, .sell, 8, ⟨List.replicate 8 32, rfl⟩, 300, none⟩)
    ⟨by decide, ?_⟩, rfl⟩
  · rfl
  · rintro m ⟨⟩
    exact .inr rfl

end ItchStreamParser

end FairCross
