import Pinax.Codec

/-! # Rows and their byte encoding (`row.rs`, and `lexis::Value`)

A `REAL` is kept as its IEEE-754 bit pattern, so equality of rows is equality bit for bit.
-/

namespace Pinax

/-- `f64::is_nan`, on the bit pattern. -/
def isNan (bits : Nat) : Bool := bits / 2 ^ 52 % 2 ^ 11 == 2 ^ 11 - 1 && bits % 2 ^ 52 != 0

/-- A `REAL` value: a double that is not NaN. -/
structure RealValue where
  bits : Nat
  bits_lt : bits < 18446744073709551616
  notNan : isNan bits = false
  deriving DecidableEq

def RealValue.tryFrom (bits : Nat) : Option RealValue :=
  if h : bits < 18446744073709551616 ∧ isNan bits = false then some ⟨bits, h.1, h.2⟩ else none

inductive Value
  | null
  | integer (v : I64)
  | real (v : RealValue)
  | text (s : String)
  | blob (b : Bytes)
  | boolean (b : Bool)
  | datetime (v : I64)
  deriving DecidableEq

structure Row where
  values : List Value
  deriving DecidableEq

def tagNull : Nat := 0
def tagInteger : Nat := 1
def tagReal : Nat := 2
def tagText : Nat := 3
def tagBlob : Nat := 4
def tagBoolean : Nat := 5
def tagDatetime : Nat := 6

/-- `str::as_bytes` -/
def utf8 (s : String) : Bytes := s.toByteArray.data.toList

/-- `String::from_utf8` -/
def fromUtf8 (bytes : Bytes) : Option String := String.fromUTF8? ⟨bytes.toArray⟩

def tooLargeAsU32 (len : Nat) (key : I64) : Res Nat :=
  if len < 2 ^ 32 then .ok len else .error (.permanent (.payloadTooLarge key len))

def invalidEncoding (reason : String) : Stop := .fatal (.invalidRowEncoding reason)

def pushLenPrefixed (buf bytes : Bytes) (key : I64) : Res Bytes := do
  let len ← tooLargeAsU32 bytes.length key
  return buf ++ toBe 4 len ++ bytes

def encodeValue (buf : Bytes) (value : Value) (key : I64) : Res Bytes :=
  match value with
  | .null => .ok (buf ++ toBe 1 tagNull)
  | .integer v => .ok (buf ++ toBe 1 tagInteger ++ v.toBeBytes)
  | .real v => .ok (buf ++ toBe 1 tagReal ++ toBe 8 v.bits)
  | .text s => pushLenPrefixed (buf ++ toBe 1 tagText) (utf8 s) key
  | .blob b => pushLenPrefixed (buf ++ toBe 1 tagBlob) b key
  | .boolean v => .ok (buf ++ toBe 1 tagBoolean ++ toBe 1 v.toNat)
  | .datetime v => .ok (buf ++ toBe 1 tagDatetime ++ v.toBeBytes)

def encodeValues (key : I64) (buf : Bytes) : List Value → Res Bytes
  | [] => .ok buf
  | value :: values => do
    let buf ← encodeValue buf value key
    encodeValues key buf values

def Row.encode (row : Row) (key : I64) : Res Bytes := do
  let count ← tooLargeAsU32 row.values.length key
  encodeValues key (toBe 4 count) row.values

def readLenPrefixed (buf : Bytes) (at' : Nat) : Res (Bytes × Nat) := do
  let len ← readU32 buf at'
  let start := at' + 4
  let bytes ← readVec buf start len
  return (bytes, start + len)

def decodeValue (buf : Bytes) (at' : Nat) : Res (Value × Nat) := do
  let tag ← readU8 buf at'
  let at' := at' + 1
  if tag = tagNull then
    return (.null, at')
  else if tag = tagInteger then
    let v ← readI64 buf at'
    return (.integer v, at' + 8)
  else if tag = tagReal then
    let bits ← readU64 buf at'
    match RealValue.tryFrom bits with
    | some real => return (.real real, at' + 8)
    | none => throw (invalidEncoding "REAL payload decoded to NaN")
  else if tag = tagText then
    let (bytes, next) ← readLenPrefixed buf at'
    match fromUtf8 bytes with
    | some text => return (.text text, next)
    | none => throw (invalidEncoding "TEXT payload was not valid UTF-8")
  else if tag = tagBlob then
    let (bytes, next) ← readLenPrefixed buf at'
    return (.blob bytes, next)
  else if tag = tagBoolean then
    let raw ← readU8 buf at'
    return (.boolean (raw != 0), at' + 1)
  else if tag = tagDatetime then
    let v ← readI64 buf at'
    return (.datetime v, at' + 8)
  else throw (invalidEncoding "unrecognized value type tag")

/-- The loop of `Row::decode`: `count` values from offset `at'` on. -/
def decodeValues (buf : Bytes) : Nat → Nat → List Value → Res (List Value)
  | 0, _, values => .ok values
  | count + 1, at', values => do
    let (value, next) ← decodeValue buf at'
    decodeValues buf count next (values ++ [value])

def Row.decode (buf : Bytes) : Res Row := do
  let count ← readU32 buf 0
  let values ← decodeValues buf count 4 []
  return ⟨values⟩

/-! ## Decoding what was encoded -/

theorem fromUtf8_utf8 (s : String) : fromUtf8 (utf8 s) = some s := by
  have bytes : (⟨(utf8 s).toArray⟩ : ByteArray) = s.toByteArray := by simp [utf8]
  rw [fromUtf8, bytes, String.fromUTF8?, dif_pos s.isValidUTF8]
  rfl

theorem RealValue.tryFrom_bits (v : RealValue) : RealValue.tryFrom v.bits = some v := by
  rw [RealValue.tryFrom, dif_pos ⟨v.bits_lt, v.notNan⟩]

theorem readBytes_append {before bytes after : Bytes} {at' n : Nat} (start : at' = before.length)
    (len : n = bytes.length) : readBytes (before ++ bytes ++ after) at' n = .ok bytes := by
  subst start len
  rw [readBytes_of_le (by simp only [List.length_append]; omega), List.append_assoc,
    Slice.slice_append_right (Nat.le_refl _), Nat.sub_self, Slice.slice_append_exact]

theorem readBe_append (before after : Bytes) {at' n v : Nat} (start : at' = before.length)
    (range : v < 256 ^ n) : ofBe <$> readBytes (before ++ toBe n v ++ after) at' n = .ok v := by
  rw [readBytes_append start (BigEndian.length_toBe n v).symm]
  exact congrArg Except.ok (BigEndian.ofBe_toBe_of_lt range)

theorem readI64_append (before after : Bytes) {at' : Nat} {v : I64} (start : at' = before.length) :
    readI64 (before ++ v.toBeBytes ++ after) at' = .ok v := by
  rw [readI64, readBytes_append start v.length_toBeBytes.symm]
  exact congrArg Except.ok v.ofBe_toBeBytes

theorem readLenPrefixed_append (before bytes after : Bytes) {at' : Nat} (start : at' = before.length)
    (range : bytes.length < 2 ^ 32) :
    readLenPrefixed (before ++ toBe 4 bytes.length ++ bytes ++ after) at'
      = .ok (bytes, at' + 4 + bytes.length) := by
  have len : readU32 (before ++ toBe 4 bytes.length ++ bytes ++ after) at' = .ok bytes.length := by
    rw [readU32, List.append_assoc _ bytes]
    exact readBe_append _ _ start (by omega)
  have payload : readVec (before ++ toBe 4 bytes.length ++ bytes ++ after) (at' + 4) bytes.length
      = .ok bytes := readBytes_append (by simp [start]) rfl
  simp only [readLenPrefixed, len, payload, bind, Except.bind, pure, Except.pure]

/-- What `encodeValue` appends. -/
def valueBytes : Value → Bytes
  | .null => toBe 1 tagNull
  | .integer v => toBe 1 tagInteger ++ v.toBeBytes
  | .real v => toBe 1 tagReal ++ toBe 8 v.bits
  | .text s => toBe 1 tagText ++ toBe 4 (utf8 s).length ++ utf8 s
  | .blob b => toBe 1 tagBlob ++ toBe 4 b.length ++ b
  | .boolean v => toBe 1 tagBoolean ++ toBe 1 v.toNat
  | .datetime v => toBe 1 tagDatetime ++ v.toBeBytes

/-- The variable-length parts of a value fit their length field. -/
def Value.Fits : Value → Prop
  | .text s => (utf8 s).length < 2 ^ 32
  | .blob b => b.length < 2 ^ 32
  | _ => True

theorem pushLenPrefixed_ok {buf bytes out : Bytes} {key : I64}
    (h : pushLenPrefixed buf bytes key = .ok out) :
    bytes.length < 2 ^ 32 ∧ out = buf ++ toBe 4 bytes.length ++ bytes := by
  unfold pushLenPrefixed tooLargeAsU32 at h
  by_cases fits : bytes.length < 2 ^ 32
  · simp only [if_pos fits, bind, Except.bind, pure, Except.pure, Except.ok.injEq] at h
    exact ⟨fits, h.symm⟩
  · simp only [if_neg fits, bind, Except.bind, reduceCtorEq] at h

theorem encodeValue_ok {buf out : Bytes} {value : Value} {key : I64}
    (h : encodeValue buf value key = .ok out) : value.Fits ∧ out = buf ++ valueBytes value := by
  cases value with
  | text s | blob b =>
    obtain ⟨fits, equal⟩ := pushLenPrefixed_ok h
    exact ⟨fits, by rw [equal]; simp [valueBytes]⟩
  | null | integer v | real v | boolean v | datetime v =>
    refine ⟨trivial, ?_⟩
    simp only [encodeValue, Except.ok.injEq] at h
    rw [← h]
    simp [valueBytes]

theorem encodeValues_ok {values : List Value} {buf out : Bytes} {key : I64}
    (h : encodeValues key buf values = .ok out) :
    (∀ value ∈ values, value.Fits) ∧ out = buf ++ values.flatMap valueBytes := by
  induction values generalizing buf with
  | nil =>
    simp only [encodeValues, Except.ok.injEq] at h
    simp [h]
  | cons value values ih =>
    simp only [encodeValues, bind, Except.bind] at h
    cases head : encodeValue buf value key with
    | error e => simp [head] at h
    | ok next =>
      rw [head] at h
      obtain ⟨fits, rfl⟩ := encodeValue_ok head
      obtain ⟨rest, equal⟩ := ih h
      exact ⟨by simpa using ⟨fits, rest⟩, by rw [equal]; simp⟩

/-- What a successful `Row::encode` returns. -/
theorem Row.encode_ok {row : Row} {key : I64} {out : Bytes} (h : row.encode key = .ok out) :
    row.values.length < 2 ^ 32 ∧ (∀ value ∈ row.values, value.Fits) ∧
      out = toBe 4 row.values.length ++ row.values.flatMap valueBytes := by
  unfold Row.encode tooLargeAsU32 at h
  by_cases fits : row.values.length < 2 ^ 32
  · simp only [if_pos fits, bind, Except.bind] at h
    exact ⟨fits, encodeValues_ok h⟩
  · simp only [if_neg fits, bind, Except.bind, reduceCtorEq] at h

theorem readTag (before after : Bytes) {at' tag : Nat} (start : at' = before.length) (range : tag < 256) :
    readU8 (before ++ toBe 1 tag ++ after) at' = .ok tag :=
  readBe_append before after start (by omega)

/-- Decoding consumes exactly what encoding one value wrote. -/
theorem decodeValue_valueBytes (before after : Bytes) {value : Value} {at' : Nat}
    (start : at' = before.length) (fits : value.Fits) :
    decodeValue (before ++ valueBytes value ++ after) at'
      = .ok (value, at' + (valueBytes value).length) := by
  -- one case for each value; the tag decides which of the branches of the decoder is taken
  cases value with
  | null =>
    have tag := readTag before after start (show tagNull < 256 by decide)
    simp only [valueBytes, decodeValue, tag, bind, Except.bind, pure, Except.pure, if_true,
      BigEndian.length_toBe]
  | integer v =>
    have tag := readTag before (v.toBeBytes ++ after) start
      (show tagInteger < 256 by decide)
    have payload := readI64_append (before ++ toBe 1 tagInteger) after (v := v)
      (show at' + 1 = _ by simp [start])
    simp only [valueBytes, List.append_assoc] at tag payload ⊢
    simp only [decodeValue, tag, bind, Except.bind, pure, Except.pure]
    rw [if_neg (by decide), if_pos trivial]
    simp only [payload, List.length_append, BigEndian.length_toBe, I64.length_toBeBytes]
  | real v =>
    have tag := readTag before (toBe 8 v.bits ++ after) start
      (show tagReal < 256 by decide)
    have payload : readU64 (before ++ toBe 1 tagReal ++ toBe 8 v.bits ++ after) (at' + 1) = .ok v.bits :=
      readBe_append _ _ (by simp [start]) v.bits_lt
    simp only [valueBytes, List.append_assoc] at tag payload ⊢
    simp only [decodeValue, tag, bind, Except.bind, pure, Except.pure]
    rw [if_neg (by decide), if_neg (by decide), if_pos trivial]
    simp only [payload, v.tryFrom_bits, List.length_append, BigEndian.length_toBe]
  | text s =>
    have tag := readTag before (toBe 4 (utf8 s).length ++ utf8 s ++ after) start
      (show tagText < 256 by decide)
    have payload := readLenPrefixed_append (before ++ toBe 1 tagText) (utf8 s) after
      (show at' + 1 = _ by simp [start]) fits
    simp only [valueBytes, List.append_assoc] at tag payload ⊢
    simp only [decodeValue, tag, bind, Except.bind, pure, Except.pure]
    rw [if_neg (by decide), if_neg (by decide), if_neg (by decide), if_pos trivial]
    simp only [payload, fromUtf8_utf8, List.length_append, BigEndian.length_toBe]
    simp only [Nat.add_assoc]
  | blob b =>
    have tag := readTag before (toBe 4 b.length ++ b ++ after) start
      (show tagBlob < 256 by decide)
    have payload := readLenPrefixed_append (before ++ toBe 1 tagBlob) b after
      (show at' + 1 = _ by simp [start]) fits
    simp only [valueBytes, List.append_assoc] at tag payload ⊢
    simp only [decodeValue, tag, bind, Except.bind, pure, Except.pure]
    rw [if_neg (by decide), if_neg (by decide), if_neg (by decide), if_neg (by decide), if_pos trivial]
    simp only [payload, List.length_append, BigEndian.length_toBe]
    simp only [Nat.add_assoc]
  | boolean v =>
    have tag := readTag before (toBe 1 v.toNat ++ after) start
      (show tagBoolean < 256 by decide)
    have payload : readU8 (before ++ toBe 1 tagBoolean ++ toBe 1 v.toNat ++ after) (at' + 1)
        = .ok v.toNat := readBe_append _ _ (by simp [start]) (by have := v.toNat_le; omega)
    simp only [valueBytes, List.append_assoc] at tag payload ⊢
    simp only [decodeValue, tag, bind, Except.bind, pure, Except.pure]
    rw [if_neg (by decide), if_neg (by decide), if_neg (by decide), if_neg (by decide),
      if_neg (by decide), if_pos trivial]
    simp only [payload, List.length_append, BigEndian.length_toBe]
    cases v <;> rfl
  | datetime v =>
    have tag := readTag before (v.toBeBytes ++ after) start
      (show tagDatetime < 256 by decide)
    have payload := readI64_append (before ++ toBe 1 tagDatetime) after (v := v)
      (show at' + 1 = _ by simp [start])
    simp only [valueBytes, List.append_assoc] at tag payload ⊢
    simp only [decodeValue, tag, bind, Except.bind, pure, Except.pure]
    rw [if_neg (by decide), if_neg (by decide), if_neg (by decide), if_neg (by decide),
      if_neg (by decide), if_neg (by decide), if_pos trivial]
    simp only [payload, List.length_append, BigEndian.length_toBe, I64.length_toBeBytes]

theorem decodeValues_flatMap (values done : List Value) (before after : Bytes) {at' : Nat}
    (start : at' = before.length) (fits : ∀ value ∈ values, value.Fits) :
    decodeValues (before ++ values.flatMap valueBytes ++ after) values.length at' done
      = .ok (done ++ values) := by
  induction values generalizing before at' done with
  | nil => simp [decodeValues]
  | cons value values ih =>
    have head := decodeValue_valueBytes before
      (values.flatMap valueBytes ++ after) start (fits value (by simp))
    have tail := ih (done ++ [value]) (before ++ valueBytes value)
      (show at' + (valueBytes value).length = _ by simp [start])
      (fun v hv => fits v (by simp [hv]))
    simp only [List.flatMap_cons, List.append_assoc] at head tail ⊢
    simp only [List.length_cons, decodeValues, head, bind, Except.bind, tail, List.singleton_append]

/-- `Row::decode` inverts `Row::encode`, whatever bytes follow. -/
theorem Row.decode_encode {row : Row} {key : I64} {out : Bytes} (h : row.encode key = .ok out)
    (after : Bytes) : Row.decode (out ++ after) = .ok row := by
  obtain ⟨count, fits, rfl⟩ := Row.encode_ok h
  have len : readU32 (toBe 4 row.values.length ++ row.values.flatMap valueBytes ++ after) 0
      = .ok row.values.length := by
    have := readBe_append [] (row.values.flatMap valueBytes ++ after)
      (n := 4) (v := row.values.length) rfl (by omega)
    simpa [readU32] using this
  have values := decodeValues_flatMap row.values [] (toBe 4 row.values.length) after
    (show 4 = _ by simp) fits
  simp only [Row.decode, len, values, bind, Except.bind, pure, Except.pure, List.nil_append]

end Pinax
