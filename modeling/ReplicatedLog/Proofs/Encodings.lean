import ReplicatedLog.Proofs.Readers

/-!
# Encodings

Every message has one encoding, and the encoding delimits itself: bytes that follow it make no
difference, no proper part of it from the front is the encoding of a message, and so no encoding begins
another (`Wire.encode_delimits`).

A message may be read from other bytes, too, with numbers in longer forms and with bytes behind it.
What is read can always be encoded, in no more bytes than it was read from, and its encoding is read as
the same message (`Wire.decode_normalises`).
-/

namespace ReplicatedLog

namespace Wire

variable {e e' : Envelope} {bytes bytes' part more : List UInt8}

theorem encode_eq_ok_iff :
    encode e = .ok bytes ↔ bytes = writeEnvelope e ∧ bytes.length ≤ maxMessageSize := by
  unfold encode
  dsimp only
  split
  · rename_i hsize
    refine ⟨(fun h => nomatch h), ?_⟩
    rintro ⟨rfl, hfits⟩
    exact absurd hfits (Nat.not_le.mpr hsize)
  · rename_i hsize
    rw [Except.ok.injEq]
    constructor
    · rintro rfl
      exact ⟨rfl, Nat.not_lt.mp hsize⟩
    · exact fun h => h.1.symm

theorem decode_eq_ok_iff : decode bytes = .ok e ↔
    bytes.length ≤ maxMessageSize ∧ ∃ rest, readEnvelope bytes = some (e, rest) := by
  unfold decode
  dsimp only
  split
  · rename_i hsize
    exact ⟨(fun h => nomatch h), fun h => absurd h.1 (Nat.not_le.mpr hsize)⟩
  · rename_i hsize
    cases hread : readEnvelope bytes with
    | none => simp
    | some r => simp [Prod.ext_iff, Nat.not_lt.mp hsize]

/-- Bytes within the limit from which no message can be read are malformed. -/
theorem decode_eq_malformed (hsize : bytes.length ≤ maxMessageSize)
    (hread : readEnvelope bytes = none) : decode bytes = .error (.codec .malformed) := by
  unfold decode
  rw [if_neg (Nat.not_lt.mpr hsize), hread]

/-- The encoding of a message is read as the message, whatever follows it. -/
theorem takes_envelope (he : e.InWords) : Takes readEnvelope (writeEnvelope e) e :=
  restores_envelope he.1 he.2

/-- From a part of an encoding nothing can be read, unless it is the whole. -/
theorem readEnvelope_eq_none_of_part (he : e.InWords) (hpart : part <+: writeEnvelope e)
    (hne : part ≠ writeEnvelope e) : readEnvelope part = none := by
  obtain ⟨missing, hwhole⟩ := hpart
  cases hread : readEnvelope part with
  | none => rfl
  | some r =>
    -- what was read from the part would be read from the whole, with bytes left over
    obtain ⟨-, used, rfl, htakes, -⟩ := reads_envelope part r.1 r.2 hread
    have hall := takes_envelope he []
    rw [List.append_nil, ← hwhole, List.append_assoc, htakes (r.2 ++ missing)] at hall
    have hnone : missing = [] := (List.append_eq_nil_iff.mp (Prod.mk.inj (Option.some.inj hall)).2).2
    rw [hnone, List.append_nil] at hwhole
    exact absurd hwhole hne

/-- An encoding that begins another is the encoding of the same message. -/
theorem eq_of_encoding_prefix (he : e.InWords) (he' : e'.InWords)
    (h : writeEnvelope e <+: writeEnvelope e') : e' = e := by
  obtain ⟨more, hmore⟩ := h
  have hread := takes_envelope he' []
  rw [List.append_nil, ← hmore, takes_envelope he more] at hread
  exact (Prod.mk.inj (Option.some.inj hread)).1.symm

/-- **Encodings delimit themselves.** A message that fits within the limit has an encoding, and is decoded
from it, also if other bytes follow within the limit. Decoding any proper part of the encoding from the
front fails. So no message has an encoding that begins that of another, and none has the same. -/
theorem encode_delimits (he : e.InWords) (hsize : (writeEnvelope e).length ≤ maxMessageSize) :
    ∃ bytes, encode e = .ok bytes ∧ decode bytes = .ok e ∧
      (∀ more, (bytes ++ more).length ≤ maxMessageSize → decode (bytes ++ more) = .ok e) ∧
      (∀ part, part <+: bytes → part ≠ bytes → decode part = .error (.codec .malformed)) ∧
      ∀ e' bytes', e'.InWords → encode e' = .ok bytes' → bytes <+: bytes' → e' = e := by
  have hmore : ∀ more, (writeEnvelope e ++ more).length ≤ maxMessageSize →
      decode (writeEnvelope e ++ more) = .ok e :=
    fun more hfits => decode_eq_ok_iff.mpr ⟨hfits, more, takes_envelope he more⟩
  refine ⟨_, encode_eq_ok_iff.mpr ⟨rfl, hsize⟩, ?_, hmore, fun part hpart hne => ?_, ?_⟩
  · have hwhole := hmore []
    rw [List.append_nil] at hwhole
    exact hwhole hsize
  · exact decode_eq_malformed (Nat.le_trans hpart.length_le hsize)
      (readEnvelope_eq_none_of_part he hpart hne)
  · rintro e' bytes' he' hencode hbegins
    obtain ⟨rfl, -⟩ := encode_eq_ok_iff.mp hencode
    exact eq_of_encoding_prefix he he' hbegins

/-- A proposal with numbers of every width takes 32 bytes. Three more bytes make no difference; without
its last byte it cannot be decoded. -/
theorem encode_delimits_of_all_widths : ∃ (e : Envelope) (bytes : List UInt8),
    e = ⟨250, .accept ⟨251, ⟨0x10000, 0xFFFF⟩, Word.top, .appBatch [1, 2], ⟨[0xFFFFFFFF]⟩⟩⟩ ∧
    e.InWords ∧ encode e = .ok bytes ∧ bytes.length = 32 ∧
    decode (bytes ++ [255, 255, 255]) = .ok e ∧
    decode bytes.dropLast = .error (.codec .malformed) := by
  let e : Envelope :=
    ⟨250, .accept ⟨251, ⟨0x10000, 0xFFFF⟩, Word.top, .appBatch [1, 2], ⟨[0xFFFFFFFF]⟩⟩⟩
  have he : e.InWords := by
    simp [e, Envelope.InWords, Message.InWords, Round.InWords, Value.InWords, EpochVector.InWords,
      Word.size, Word.top, Value.appBatch]
  have hlength : (writeEnvelope e).length = 32 := by decide +kernel
  obtain ⟨bytes, hencode, -, hmore, hpart, -⟩ :=
    encode_delimits he (Nat.le_trans (Nat.le_of_eq hlength) (by decide))
  obtain ⟨rfl, -⟩ := encode_eq_ok_iff.mp hencode
  refine ⟨e, _, rfl, he, hencode, hlength, hmore _ ?_, hpart _ (List.dropLast_prefix _) ?_⟩
  · rw [List.length_append, hlength]
    decide
  · intro heq
    have hshort := congrArg List.length heq
    rw [List.length_dropLast, hlength] at hshort
    cases hshort

/-- **Decoding normalises.** Whatever was decoded can be encoded, in no more bytes than it was decoded
from. It is decoded from its encoding again, and then has the same encoding. -/
theorem decode_normalises (h : decode bytes = .ok e) : e.InWords ∧
    ∃ shortest, encode e = .ok shortest ∧ shortest.length ≤ bytes.length ∧
      decode shortest = .ok e ∧ (decode shortest >>= encode) = .ok shortest := by
  obtain ⟨hsize, rest, hread⟩ := decode_eq_ok_iff.mp h
  obtain ⟨he, used, rfl, -, hlength⟩ := reads_envelope bytes e rest hread
  rw [Nat.zero_add] at hlength
  have hshorter : (writeEnvelope e).length ≤ (used ++ rest).length :=
    Nat.le_trans hlength (List.length_append ▸ Nat.le_add_right _ _)
  obtain ⟨shortest, hencode, hdecode, -⟩ := encode_delimits he (Nat.le_trans hshorter hsize)
  obtain ⟨rfl, -⟩ := encode_eq_ok_iff.mp hencode
  refine ⟨he, _, hencode, hshorter, hdecode, ?_⟩
  rw [hdecode]
  exact hencode

/-- A request for slots 5 and 6 with some numbers in longer forms, and a byte behind it, is decoded from
23 bytes. It is encoded in 6. -/
theorem decode_normalises_of_long_forms : ∃ (bytes shortest : List UInt8) (e : Envelope),
    bytes = [251, 1, 0, 4, 253, 1, 0, 0, 0, 0, 0, 0, 0, 1, 252, 5, 0, 0, 0, 251, 6, 0, 99] ∧
    e = ⟨1, .catchUpRequest ⟨1, [(5, 6)]⟩⟩ ∧ decode bytes = .ok e ∧
    shortest = [1, 4, 1, 1, 5, 6] ∧ encode e = .ok shortest ∧ shortest.length ≤ bytes.length ∧
    decode shortest = .ok e := by
  let bytes : List UInt8 :=
    [251, 1, 0, 4, 253, 1, 0, 0, 0, 0, 0, 0, 0, 1, 252, 5, 0, 0, 0, 251, 6, 0, 99]
  let e : Envelope := ⟨1, .catchUpRequest ⟨1, [(5, 6)]⟩⟩
  have hread : decode bytes = .ok e :=
    decode_eq_ok_iff.mpr ⟨by decide, [99], by decide +kernel⟩
  obtain ⟨-, shortest, hencode, hlength, hdecode, -⟩ := decode_normalises hread
  have hshortest : shortest = writeEnvelope e := (encode_eq_ok_iff.mp hencode).1
  exact ⟨bytes, shortest, e, rfl, rfl, hread, hshortest, hencode, hlength, hdecode⟩

end Wire

end ReplicatedLog
