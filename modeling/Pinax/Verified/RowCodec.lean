import Pinax.Row
import Pinax.Verified.Lengths

/-! # A cut encoding does not decode

The decoder only looks at the bytes it consumes: what it reads from a buffer it also reads from every
longer one.  So it cannot get through a strict prefix of an encoding, and no encoding is a strict prefix
of another.
-/

namespace Pinax

/-- An error of `x` is one the code returns, not a panic. -/
def Res.Typed {α : Type} (x : Res α) : Prop := ∀ e, x = .error e → ∃ err, e = .err err

namespace Res.Typed

variable {α β : Type}

theorem ok {a : α} : Res.Typed (.ok a : Res α) := fun _ h => absurd h nofun

theorem error {err : PinaxError} : Res.Typed (.error (.err err) : Res α) :=
  fun _ h => ⟨err, by injection h with h; exact h.symm⟩

theorem bind {x : Res α} {f : α → Res β} (first : Typed x) (rest : ∀ a, Typed (f a)) :
    Typed (x >>= f) := by
  cases x with
  | ok a => exact rest a
  | error e =>
    intro e' h
    injection h with h
    exact h ▸ first e rfl

theorem map {x : Res α} {f : α → β} (first : Typed x) : Typed (f <$> x) := by
  cases x with
  | ok a => exact ok
  | error e =>
    intro e' h
    injection h with h
    exact h ▸ first e rfl

theorem ite {c : Prop} [Decidable c] {x y : Res α} (left : Typed x) (right : Typed y) :
    Typed (if c then x else y) := by
  split
  · exact left
  · exact right

end Res.Typed

theorem readBytes_typed (buf : Bytes) (at' n : Nat) : (readBytes buf at' n).Typed := .ite .ok .error

theorem readLenPrefixed_typed (buf : Bytes) (at' : Nat) : (readLenPrefixed buf at').Typed :=
  .bind (readBytes_typed _ _ _).map fun _ => .bind (readBytes_typed _ _ _) fun _ => .ok

theorem decodeValue_typed (buf : Bytes) (at' : Nat) : (decodeValue buf at').Typed := by
  unfold decodeValue
  refine .bind (readBytes_typed _ _ _).map fun tag => ?_
  refine .ite .ok (.ite ?_ (.ite ?_ (.ite ?_ (.ite ?_ (.ite ?_ (.ite ?_ .error))))))
  · exact .bind (readBytes_typed _ _ _).map fun _ => .ok
  · refine .bind (readBytes_typed _ _ _).map fun bits => ?_
    cases RealValue.tryFrom bits with
    | some real => exact .ok
    | none => exact .error
  · refine .bind (readLenPrefixed_typed _ _) fun both => ?_
    simp only
    cases fromUtf8 both.1 with
    | some text => exact .ok
    | none => exact .error
  · exact .bind (readLenPrefixed_typed _ _) fun _ => .ok
  · exact .bind (readBytes_typed _ _ _).map fun _ => .ok
  · exact .bind (readBytes_typed _ _ _).map fun _ => .ok

/-! ## What is read is read from every longer buffer -/

variable {buf : Bytes} {at' n : Nat}

theorem readBytes_extend {bytes : Bytes} (h : readBytes buf at' n = .ok bytes) :
    at' + n ≤ buf.length ∧ ∀ more, readBytes (buf ++ more) at' n = .ok bytes := by
  rw [readBytes] at h
  split at h
  next inside =>
    injection h with h
    refine ⟨inside, fun more => ?_⟩
    rw [readBytes_of_le (by rw [List.length_append]; omega), ← h]
    congr 1
    rw [Slice.slice, Slice.slice, List.drop_append_of_le_length (show at' ≤ buf.length by omega)]
    exact List.take_append_of_le_length (by rw [List.length_drop]; omega)
  next => cases h

theorem map_readBytes_extend {α : Type} {f : Bytes → α} {a : α} (h : f <$> readBytes buf at' n = .ok a) :
    at' + n ≤ buf.length ∧ ∀ more, f <$> readBytes (buf ++ more) at' n = .ok a := by
  cases read : readBytes buf at' n with
  | error e => rw [read] at h; cases h
  | ok bytes =>
    rw [read] at h
    obtain ⟨inside, longer⟩ := readBytes_extend read
    exact ⟨inside, fun more => by rw [longer more]; exact h⟩

theorem readLenPrefixed_extend {bytes : Bytes} {next : Nat}
    (h : readLenPrefixed buf at' = .ok (bytes, next)) :
    next ≤ buf.length ∧ ∀ more, readLenPrefixed (buf ++ more) at' = .ok (bytes, next) := by
  unfold readLenPrefixed at h
  obtain ⟨len, readLen, h⟩ := Res.bind_ok h
  obtain ⟨payload, read, h⟩ := Res.bind_ok h
  injection h with h
  injection h with same stop
  subst same stop
  have inside := (readBytes_extend read).1
  refine ⟨inside, fun more => ?_⟩
  have readLen' := (map_readBytes_extend readLen).2 more
  have read' := (readBytes_extend read).2 more
  simp only [readLenPrefixed, readU32, readLen', ok_bind, readVec, read', pure_eq_ok]

/-- Decoding a value only looks at the bytes it consumes. -/
theorem decodeValue_extend {value : Value} {next : Nat} (h : decodeValue buf at' = .ok (value, next)) :
    next ≤ buf.length ∧ ∀ more, decodeValue (buf ++ more) at' = .ok (value, next) := by
  unfold decodeValue at h
  obtain ⟨tag, readTag, h⟩ := Res.bind_ok h
  obtain ⟨inside, tagAgain⟩ := map_readBytes_extend readTag
  unfold decodeValue readU8
  simp only [tagAgain, ok_bind]
  -- one case for each tag, in the order of the source; each reads inside the buffer
  split at h
  next isNull =>
    injection h with h
    injection h with same stop
    subst same stop
    exact ⟨inside, fun more => by rw [if_pos isNull]; rfl⟩
  next notNull =>
  split at h
  next isInteger =>
    obtain ⟨v, read, h⟩ := Res.bind_ok h
    injection h with h
    injection h with same stop
    subst same stop
    obtain ⟨inside, again⟩ := map_readBytes_extend read
    refine ⟨inside, fun more => ?_⟩
    rw [if_neg notNull, if_pos isInteger, readI64, again, ok_bind]
    rfl
  next notInteger =>
  split at h
  next isReal =>
    obtain ⟨bits, read, h⟩ := Res.bind_ok h
    obtain ⟨inside, again⟩ := map_readBytes_extend read
    refine ⟨?_, fun more => ?_⟩
    · cases real : RealValue.tryFrom bits with
      | none => rw [real] at h; cases h
      | some v =>
        rw [real] at h
        injection h with h
        injection h with same stop
        subst stop
        exact inside
    · rw [if_neg notNull, if_neg notInteger, if_pos isReal, readU64, again, ok_bind]
      exact h
  next notReal =>
  split at h
  next isText =>
    obtain ⟨⟨bytes, stop⟩, read, h⟩ := Res.bind_ok h
    obtain ⟨inside, again⟩ := readLenPrefixed_extend read
    refine ⟨?_, fun more => ?_⟩
    · simp only at h
      cases text : fromUtf8 bytes with
      | none => rw [text] at h; cases h
      | some s =>
        rw [text] at h
        injection h with h
        injection h with same stop
        subst stop
        exact inside
    · rw [if_neg notNull, if_neg notInteger, if_neg notReal, if_pos isText, again, ok_bind]
      exact h
  next notText =>
  split at h
  next isBlob =>
    obtain ⟨⟨bytes, stop⟩, read, h⟩ := Res.bind_ok h
    obtain ⟨inside, again⟩ := readLenPrefixed_extend read
    injection h with h
    injection h with same stop
    subst same stop
    refine ⟨inside, fun more => ?_⟩
    rw [if_neg notNull, if_neg notInteger, if_neg notReal, if_neg notText, if_pos isBlob, again, ok_bind]
    rfl
  next notBlob =>
  split at h
  next isBoolean =>
    obtain ⟨raw, read, h⟩ := Res.bind_ok h
    injection h with h
    injection h with same stop
    subst same stop
    obtain ⟨inside, again⟩ := map_readBytes_extend read
    refine ⟨inside, fun more => ?_⟩
    rw [if_neg notNull, if_neg notInteger, if_neg notReal, if_neg notText, if_neg notBlob,
      if_pos isBoolean, again, ok_bind]
    rfl
  next notBoolean =>
  split at h
  next isDatetime =>
    obtain ⟨v, read, h⟩ := Res.bind_ok h
    injection h with h
    injection h with same stop
    subst same stop
    obtain ⟨inside, again⟩ := map_readBytes_extend read
    refine ⟨inside, fun more => ?_⟩
    rw [if_neg notNull, if_neg notInteger, if_neg notReal, if_neg notText, if_neg notBlob,
      if_neg notBoolean, if_pos isDatetime, readI64, again, ok_bind]
    rfl
  next => cases h

/-! ## Strict prefixes -/

/-- With its last bytes missing, a list of values does not decode. -/
theorem decodeValues_cut {values done : List Value} {before cut more : Bytes}
    (start : at' = before.length) (fits : ∀ value ∈ values, value.Fits)
    (split : cut ++ more = before ++ values.flatMap valueBytes) (some : more ≠ [])
    (reached : before.length ≤ cut.length) :
    ∃ err, decodeValues cut values.length at' done = .error (.err err) := by
  induction values generalizing before at' done with
  | nil =>
    have len := congrArg List.length split
    have := List.length_pos_iff.mpr some
    simp only [List.flatMap_nil, List.append_nil, List.length_append] at len
    omega
  | cons value values ih =>
    have full :=
      decodeValue_valueBytes before (values.flatMap valueBytes) start (fits value List.mem_cons_self)
    rw [List.append_assoc, ← List.flatMap_cons, ← split] at full
    rw [List.length_cons, decodeValues]
    cases head : decodeValue cut at' with
    | error e =>
      obtain ⟨err, rfl⟩ := decodeValue_typed cut at' e head
      exact ⟨err, rfl⟩
    | ok both =>
      obtain ⟨value', next⟩ := both
      obtain ⟨inside, longer⟩ := decodeValue_extend head
      rw [longer more] at full
      injection full with full
      injection full with same stop
      subst same stop start
      have rest : cut ++ more = (before ++ valueBytes value') ++ values.flatMap valueBytes := by
        rw [split, List.flatMap_cons, List.append_assoc]
      exact ih List.length_append.symm (fun v member => fits v (List.mem_cons_of_mem _ member)) rest
        (by rw [List.length_append]; exact inside)

variable {row row' : Row} {key key' : I64} {out out' : Bytes}

/-- `Row::decode` rejects every strict prefix of an encoding. -/
theorem Row.decode_cut (h : row.encode key = .ok out) {cut more : Bytes} (split : cut ++ more = out)
    (some : more ≠ []) : ∃ err, Row.decode cut = .error (.err err) := by
  obtain ⟨count, fits, rfl⟩ := Row.encode_ok h
  have read : readU32 (cut ++ more) 0 = .ok row.values.length := by
    have := readBe_append [] (row.values.flatMap valueBytes) (n := 4)
      (v := row.values.length) rfl (by omega)
    rw [split]
    simpa [readU32] using this
  rw [Row.decode]
  cases first : readU32 cut 0 with
  | error e =>
    obtain ⟨err, rfl⟩ := (readBytes_typed cut 0 4).map (f := ofBe) e first
    exact ⟨err, rfl⟩
  | ok n =>
    obtain ⟨inside, longer⟩ := map_readBytes_extend first
    have same : n = row.values.length := by
      have again : readU32 (cut ++ more) 0 = .ok n := longer more
      rw [read] at again
      injection again with again
      exact again.symm
    subst same
    have cutShort : ∃ err, decodeValues cut row.values.length 4 [] = .error (.err err) :=
      decodeValues_cut (BigEndian.length_toBe 4 _).symm fits split some
        (by rw [BigEndian.length_toBe]; omega)
    obtain ⟨err, cutShort⟩ := cutShort
    exact ⟨err, by rw [ok_bind, cutShort]; rfl⟩

/-- No encoding continues another one. -/
theorem Row.encode_prefix_free (h : row.encode key = .ok out) (h' : row'.encode key' = .ok out')
    (isPrefix : out <+: out') : out = out' ∧ row = row' := by
  obtain ⟨more, split⟩ := isPrefix
  by_cases some : more = []
  · subst some
    rw [List.append_nil] at split
    subst split
    have decoded := Row.decode_encode h []
    rw [Row.decode_encode h' []] at decoded
    injection decoded with decoded
    exact ⟨rfl, decoded.symm⟩
  · obtain ⟨err, cutShort⟩ := Row.decode_cut h' split some
    have decoded := Row.decode_encode h []
    rw [List.append_nil, cutShort] at decoded
    cases decoded

/-- The row codec: decoding inverts encoding whatever follows, rejects every strict prefix, and
encodings are prefix-free. -/
theorem row_codec (h : row.encode key = .ok out) :
    (∀ after, Row.decode (out ++ after) = .ok row) ∧
      (∀ n, n < out.length → ∃ err, Row.decode (out.take n) = .error (.err err)) ∧
      (∀ row' key' out', row'.encode key' = .ok out' → (out <+: out' → out = out') ∧
        (row ≠ row' → out ≠ out')) := by
  refine ⟨Row.decode_encode h, fun n short => ?_, fun row' key' out' h' => ⟨?_, ?_⟩⟩
  · refine Row.decode_cut h (List.take_append_drop n out) fun none => ?_
    have := List.drop_eq_nil_iff.mp none
    omega
  · exact fun isPrefix => (Row.encode_prefix_free h h' isPrefix).1
  · rintro distinct rfl
    exact distinct (Row.encode_prefix_free h h' (List.prefix_refl _)).2

theorem row_codec_null_true :
    Row.decode ([0, 0, 0, 2, 0, 5, 1] ++ [7]) = .ok ⟨[.null, .boolean true]⟩ ∧
      ∃ err, Row.decode ([0, 0, 0, 2, 0, 5, 1].take 6) = .error (.err err) :=
  have codec := row_codec
    (show Row.encode ⟨[.null, .boolean true]⟩ ⟨0, by decide, by decide⟩ = .ok
      [0, 0, 0, 2, 0, 5, 1] by decide)
  ⟨codec.1 [7], codec.2.1 6 (by decide)⟩

end Pinax
