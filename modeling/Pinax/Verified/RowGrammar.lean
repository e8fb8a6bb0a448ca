import Pinax.Library.Grammar
import Pinax.Verified.RowCodec

/-! # What the row decoder accepts

`Row::decode` accepts exactly the bytes that start with a count and that many spelled values.  A
boolean's second byte may be any byte; every other value has one spelling, the one `Row::encode`
writes.
-/

namespace Pinax

open Grammar (Reads many)

/-- The bytes a value is decoded from. -/
inductive Value.Spelled : Value → Bytes → Prop
  | encoded {value : Value} (fits : value.Fits) : Spelled value (valueBytes value)
  | boolean (raw : UInt8) : Spelled (.boolean (raw != 0)) (toBe 1 tagBoolean ++ [raw])

variable {buf part : Bytes} {at' next n v : Nat} {value : Value}

/-! ## What the accessors read -/

theorem readBytes_stands {bytes : Bytes} (h : readBytes buf at' n = .ok bytes) :
    bytes <+: buf.drop at' ∧ bytes.length = n := by
  rw [readBytes] at h
  split at h
  next inside =>
    injection h with same
    subst same
    exact ⟨List.take_prefix n (buf.drop at'), Slice.length_slice_of_le inside⟩
  next => cases h

theorem readBe_stands (h : ofBe <$> readBytes buf at' n = .ok v) :
    toBe n v <+: buf.drop at' ∧ v < 256 ^ n := by
  cases read : readBytes buf at' n with
  | error e =>
    rw [read] at h
    cases h
  | ok bytes =>
    obtain ⟨stands, rfl⟩ := readBytes_stands read
    rw [read] at h
    injection h with same
    subst same
    rw [BigEndian.toBe_ofBe]
    exact ⟨stands, BigEndian.ofBe_lt bytes⟩

theorem I64.toBits_ofBits (small : n < 256 ^ 8) : (I64.ofBits n).toBits = n := by
  have whole : n % 18446744073709551616 = n := Nat.mod_eq_of_lt (by simpa using small)
  simp only [I64.toBits, I64.ofBits, whole]
  split <;> omega

theorem readI64_stands {v : I64} (h : readI64 buf at' = .ok v) : v.toBeBytes <+: buf.drop at' := by
  rw [readI64] at h
  cases read : readBytes buf at' 8 with
  | error e =>
    rw [read] at h
    cases h
  | ok bytes =>
    obtain ⟨stands, len⟩ := readBytes_stands read
    have small := BigEndian.ofBe_lt bytes
    rw [read] at h
    injection h with same
    subst same
    rw [len] at small
    rw [I64.toBeBytes, I64.toBits_ofBits small, ← len, BigEndian.toBe_ofBe]
    exact stands

theorem readLenPrefixed_stands {bytes : Bytes} (h : readLenPrefixed buf at' = .ok (bytes, next)) :
    toBe 4 bytes.length ++ bytes <+: buf.drop at' ∧ bytes.length < 2 ^ 32 ∧
      next = at' + 4 + bytes.length := by
  unfold readLenPrefixed at h
  obtain ⟨len, readLen, h⟩ := Res.bind_ok h
  obtain ⟨payload, read, h⟩ := Res.bind_ok h
  injection h with h
  injection h with same stop
  subst same stop
  obtain ⟨lenStands, small⟩ := readBe_stands readLen
  obtain ⟨stands, rfl⟩ := readBytes_stands read
  refine ⟨Grammar.prefix_drop_append.mpr ⟨lenStands, ?_⟩, by omega, rfl⟩
  rw [BigEndian.length_toBe]
  exact stands

theorem fromUtf8_some {bytes : Bytes} {s : String} (h : fromUtf8 bytes = some s) : utf8 s = bytes := by
  rw [fromUtf8, String.fromUTF8?] at h
  split at h
  next valid =>
    injection h with same
    subst same
    simp [utf8, String.fromUTF8]
  next => cases h

theorem RealValue.tryFrom_some {real : RealValue} (h : RealValue.tryFrom n = some real) :
    real.bits = n := by
  rw [RealValue.tryFrom] at h
  split at h
  next valid =>
    injection h with same
    rw [← same]
  next => cases h

/-! ## One value -/

theorem decodeValue_sound (h : decodeValue buf at' = .ok (value, next)) :
    ∃ part, value.Spelled part ∧ part <+: buf.drop at' ∧ next = at' + part.length := by
  unfold decodeValue at h
  obtain ⟨tag, readTag, h⟩ := Res.bind_ok h
  obtain ⟨tagStands, -⟩ := readBe_stands readTag
  -- what follows the tag stands after it
  have after : ∀ payload, payload <+: buf.drop (at' + 1) → toBe 1 tag ++ payload <+: buf.drop at' := by
    intro payload stands
    apply Grammar.prefix_drop_append.mpr
    rw [BigEndian.length_toBe]
    exact ⟨tagStands, stands⟩
  split at h
  next isNull =>
    subst isNull
    injection h with h
    injection h with same stop
    subst same stop
    exact ⟨_, .encoded trivial, tagStands, rfl⟩
  next =>
  split at h
  next isInteger =>
    subst isInteger
    obtain ⟨v, read, h⟩ := Res.bind_ok h
    injection h with h
    injection h with same stop
    subst same stop
    exact ⟨_, .encoded trivial, after _ (readI64_stands read), by simp [valueBytes, Nat.add_assoc]⟩
  next =>
  split at h
  next isReal =>
    subst isReal
    obtain ⟨bits, read, h⟩ := Res.bind_ok h
    cases real : RealValue.tryFrom bits with
    | none =>
      rw [real] at h
      cases h
    | some v =>
      rw [real] at h
      injection h with h
      injection h with same stop
      subst same stop
      have stands := (readBe_stands read).1
      rw [← RealValue.tryFrom_some real] at stands
      exact ⟨_, .encoded trivial, after _ stands, by simp [valueBytes, Nat.add_assoc]⟩
  next =>
  split at h
  next isText =>
    subst isText
    obtain ⟨⟨bytes, stop⟩, read, h⟩ := Res.bind_ok h
    obtain ⟨stands, small, rfl⟩ := readLenPrefixed_stands read
    simp only at h
    cases text : fromUtf8 bytes with
    | none =>
      rw [text] at h
      cases h
    | some s =>
      rw [text] at h
      injection h with h
      injection h with same stop
      subst same stop
      have bytesOf := fromUtf8_some text
      subst bytesOf
      refine ⟨_, .encoded small, ?_, by simp [valueBytes]; omega⟩
      rw [valueBytes, List.append_assoc]
      exact after _ stands
  next =>
  split at h
  next isBlob =>
    subst isBlob
    obtain ⟨⟨bytes, stop⟩, read, h⟩ := Res.bind_ok h
    obtain ⟨stands, small, rfl⟩ := readLenPrefixed_stands read
    injection h with h
    injection h with same stop
    subst same stop
    refine ⟨_, .encoded small, ?_, by simp [valueBytes]; omega⟩
    rw [valueBytes, List.append_assoc]
    exact after _ stands
  next =>
  split at h
  next isBoolean =>
    subst isBoolean
    obtain ⟨raw, read, h⟩ := Res.bind_ok h
    injection h with h
    injection h with same stop
    subst same stop
    obtain ⟨stands, small⟩ := readBe_stands read
    have single : toBe 1 raw = [UInt8.ofNat raw] := rfl
    have zero : (raw != 0) = (UInt8.ofNat raw != 0) := by
      rw [Bool.eq_iff_iff, bne_iff_ne, bne_iff_ne, ne_eq, ne_eq, ← UInt8.toNat_inj, UInt8.toNat_ofNat']
      rw [Nat.mod_eq_of_lt (by simpa using small)]
      rfl
    rw [single] at stands
    rw [zero]
    exact ⟨_, .boolean _, after _ stands, by simp⟩
  next =>
  split at h
  next isDatetime =>
    subst isDatetime
    obtain ⟨v, read, h⟩ := Res.bind_ok h
    injection h with h
    injection h with same stop
    subst same stop
    exact ⟨_, .encoded trivial, after _ (readI64_stands read), by simp [valueBytes, Nat.add_assoc]⟩
  next => cases h

theorem decodeValue_complete (spelled : value.Spelled part) (stands : part <+: buf.drop at') :
    decodeValue buf at' = .ok (value, at' + part.length) := by
  obtain ⟨after, split⟩ := stands
  have reach : at' ≤ buf.length ∨ part = [] := by
    by_cases past : at' ≤ buf.length
    · exact .inl past
    · rw [List.drop_eq_nil_of_le (by omega)] at split
      exact .inr (List.append_eq_nil_iff.mp split).1
  -- no spelling is empty
  have some : part ≠ [] := by
    cases spelled with
    | encoded fits => cases value <;> simp [valueBytes, toBe]
    | boolean raw => simp [toBe]
  have start : at' = (buf.take at').length := by
    rw [List.length_take]
    have := reach.resolve_right some
    omega
  have whole : buf = buf.take at' ++ part ++ after := by
    rw [List.append_assoc, split, List.take_append_drop]
  cases spelled with
  | encoded fits =>
    rw [whole]
    exact decodeValue_valueBytes _ _ start fits
  | boolean raw =>
    have tag := readTag (buf.take at') ([raw] ++ after) start (show tagBoolean < 256 by decide)
    have payload : readBytes (buf.take at' ++ toBe 1 tagBoolean ++ [raw] ++ after)
      (at' + 1) 1 = .ok [raw] :=
      readBytes_append (by rw [List.length_append, ← start]; rfl) rfl
    rw [← List.append_assoc] at tag whole
    rw [← whole] at tag payload
    have read : readU8 buf (at' + 1) = .ok raw.toNat := by
      rw [readU8, payload]
      simp [Functor.map, Except.map, ofBe]
    have same : (raw.toNat != 0) = (raw != 0) := by
      rw [Bool.eq_iff_iff, bne_iff_ne, bne_iff_ne, ne_eq, ne_eq, ← UInt8.toNat_inj]
      rfl
    simp only [decodeValue, tag, ok_bind]
    rw [if_neg (by decide), if_neg (by decide), if_neg (by decide), if_neg (by decide),
      if_neg (by decide), if_pos trivial, read, ok_bind, same]
    rfl

theorem decodeValue_reads : Reads Value.Spelled decodeValue where
  sound := decodeValue_sound
  complete := decodeValue_complete

/-! ## Whole rows -/

theorem decodeValues_eq_many (count at' : Nat) (done : List Value) :
    decodeValues buf count at' done = many decodeValue buf count at' done := by
  induction count generalizing at' done with
  | zero => rfl
  | succ count ih =>
    rw [decodeValues, many]
    simp only [ih]

/-- The bytes a row is decoded from: the number of its values, and then the values. -/
def Row.Spelled (row : Row) (s : Bytes) : Prop :=
  row.values.length < 2 ^ 32 ∧ ∃ parts, List.Forall₂ Value.Spelled row.values parts ∧
    s = toBe 4 row.values.length ++ parts.flatten

theorem Row.decode_iff {row : Row} {s : Bytes} :
    Row.decode s = .ok row ↔ ∃ t, row.Spelled t ∧ t <+: s := by
  rw [Row.decode]
  constructor
  · intro h
    obtain ⟨count, read, h⟩ := Res.bind_ok h
    obtain ⟨values, decoded, h⟩ := Res.bind_ok h
    injection h with same
    subst same
    obtain ⟨stands, small⟩ := readBe_stands read
    -- the count is read, then as many values, whose spellings follow one another
    rw [decodeValues_eq_many] at decoded
    obtain ⟨new, parts, same, rfl, derivations, follow⟩ := decodeValue_reads.many_iff.mp decoded
    rw [List.nil_append] at same
    subst same
    refine ⟨_, ⟨small, parts, derivations, rfl⟩, ?_⟩
    have behind : parts.flatten <+: s.drop (0 + (toBe 4 values.length).length) := by
      rw [BigEndian.length_toBe]
      exact follow
    exact Grammar.prefix_drop_append.mpr ⟨stands, behind⟩
  · rintro ⟨t, ⟨small, parts, derivations, rfl⟩, stands⟩
    obtain ⟨count, follow⟩ := Grammar.prefix_drop_append.mp (show _ <+: s.drop 0 from stands)
    rw [BigEndian.length_toBe] at follow
    have read : readU32 s 0 = .ok row.values.length := by
      obtain ⟨after, split⟩ := count
      have count : ofBe <$> readBytes ([] ++ toBe 4 row.values.length ++ after) 0 4 =
        .ok row.values.length :=
        readBe_append [] after rfl (by omega)
      rw [List.nil_append, split] at count
      exact count
    have decoded : decodeValues s row.values.length 4 [] = .ok row.values := by
      rw [decodeValues_eq_many]
      exact decodeValue_reads.many_iff.mpr ⟨row.values, parts, rfl, rfl, derivations, follow⟩
    rw [read, ok_bind, decoded]
    rfl

theorem Row.decode_typed (s : Bytes) : (Row.decode s).Typed := by
  have values : ∀ count at' done, (decodeValues s count at' done).Typed := by
    intro count
    induction count with
    | zero => exact fun _ _ => .ok
    | succ count ih => exact fun at' done => .bind (decodeValue_typed s at') fun both => ih _ _
  exact .bind (readBytes_typed _ _ _).map fun count => .bind (values _ _ _) fun _ => .ok

/-! ## Encoding what was accepted -/

theorem Value.Spelled.fits (spelled : value.Spelled part) : value.Fits := by
  cases spelled with
  | encoded fits => exact fits
  | boolean raw => trivial

theorem Value.Spelled.length_eq (spelled : value.Spelled part) :
    (valueBytes value).length = part.length := by
  cases spelled with
  | encoded fits => rfl
  | boolean raw => simp [valueBytes]

theorem encodeValue_of_fits (buf : Bytes) (key : I64) (fits : value.Fits) :
    encodeValue buf value key = .ok (buf ++ valueBytes value) := by
  cases value with
  | text s | blob b =>
    rw [encodeValue, pushLenPrefixed, tooLargeAsU32, if_pos (show _ < 2 ^ 32 from fits), ok_bind]
    simp [valueBytes]
  | null | integer v | real v | boolean v | datetime v => simp [encodeValue, valueBytes]

theorem encodeValues_of_fits {values : List Value} (buf : Bytes) (key : I64)
    (fits : ∀ value ∈ values, value.Fits) :
    encodeValues key buf values = .ok (buf ++ values.flatMap valueBytes) := by
  induction values generalizing buf with
  | nil => simp [encodeValues]
  | cons value values ih =>
    rw [encodeValues, encodeValue_of_fits buf key (fits value List.mem_cons_self), ok_bind,
      ih _ fun v member => fits v (List.mem_cons_of_mem _ member)]
    simp

theorem spelled_values {values : List Value} {parts : List Bytes}
    (derivations : List.Forall₂ Value.Spelled values parts) :
    (∀ value ∈ values, value.Fits) ∧ (values.flatMap valueBytes).length = parts.flatten.length := by
  induction derivations with
  | nil => exact ⟨fun _ member => absurd member List.not_mem_nil, rfl⟩
  | cons spelled _ ih =>
    obtain ⟨fits, lengths⟩ := ih
    exact ⟨List.forall_mem_cons.mpr ⟨spelled.fits, fits⟩, by simp [spelled.length_eq, lengths]⟩

/-- A row that was decoded is encoded under every key, in as many bytes as were read. -/
theorem Row.Spelled.encode {row : Row} {s : Bytes} (spelled : row.Spelled s) (key : I64) :
    ∃ out, row.encode key = .ok out ∧ out.length = s.length := by
  obtain ⟨small, parts, derivations, rfl⟩ := spelled
  obtain ⟨fits, lengths⟩ := spelled_values derivations
  refine ⟨toBe 4 row.values.length ++ row.values.flatMap valueBytes, ?_, by simp [lengths]⟩
  rw [Row.encode, tooLargeAsU32, if_pos small, ok_bind]
  exact encodeValues_of_fits _ key fits

/-- `Row::decode` accepts the bytes that start with a spelled row, and no others, and rejects the
rest with an error of its own.  No spelling continues another one, and each has the length of the
encoding under any key. -/
theorem row_decode_accepts (s : Bytes) :
    (∀ row, Row.decode s = .ok row ↔ ∃ t, row.Spelled t ∧ t <+: s) ∧
      (∀ e, Row.decode s = .error e → ∃ err, e = .err err) ∧
      ∀ row t, row.Spelled t →
        (∀ row', row'.Spelled s → t <+: s → row = row' ∧ t = s) ∧
        ∀ key, ∃ out, row.encode key = .ok out ∧ out.length = t.length ∧
          ∀ after, Row.decode (out ++ after) = .ok row := by
  refine ⟨fun row => Row.decode_iff, Row.decode_typed s,
    fun row t spelled => ⟨fun row' spelled' stands => ?_, fun key => ?_⟩⟩
  · have decoded := Row.decode_iff.mpr ⟨t, spelled, stands⟩
    rw [Row.decode_iff.mpr ⟨s, spelled', List.prefix_refl s⟩] at decoded
    injection decoded with same
    subst same
    -- both spellings are as long as the encoding
    have key : I64 := I64.ofBits 0
    obtain ⟨out, encodes, len⟩ := spelled.encode key
    obtain ⟨out', encodes', len'⟩ := spelled'.encode key
    rw [encodes] at encodes'
    injection encodes' with same
    subst same
    exact ⟨rfl, List.IsPrefix.eq_of_length stands (len.symm.trans len')⟩
  · obtain ⟨out, encodes, len⟩ := spelled.encode key
    exact ⟨out, encodes, len, Row.decode_encode encodes⟩

end Pinax
