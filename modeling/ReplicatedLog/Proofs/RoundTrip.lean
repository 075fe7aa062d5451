import ReplicatedLog.Wire.Codec
import ReplicatedLog.Word

/-!
# What was written is read back

A reader takes from the front of the bytes what a writer put there, and leaves what follows
(`Wire.Restores`). This holds part by part, up to whole messages with their source
(`Wire.restores_envelope`), as long as every number fits in a word (`Message.InWords`). So a message
within the limit on its size arrives as it was sent (`Wire.carry_eq_ok`).
-/

namespace ReplicatedLog

/-! ### Messages in words -/

/-- Both numbers of the round fit in words. -/
def Round.InWords (r : Round) : Prop := r.counter < Word.size ∧ r.owner < Word.size

instance (r : Round) : Decidable r.InWords := inferInstanceAs (Decidable (_ ∧ _))

/-- The length of the payload fits in a word. -/
def Value.InWords (v : Value) : Prop := v.payload.length < Word.size

instance (v : Value) : Decidable v.InWords := inferInstanceAs (Decidable (_ < _))

/-- The epochs, and how many there are, fit in words. -/
def EpochVector.InWords (v : EpochVector) : Prop :=
  v.entries.length < Word.size ∧ ∀ epoch ∈ v.entries, epoch < Word.size

instance (v : EpochVector) : Decidable v.InWords :=
  inferInstanceAs (Decidable (_ ∧ ∀ epoch ∈ v.entries, epoch < Word.size))

/-- The numbers of the report fit in words. -/
def Report.InWords (r : Report) : Prop :=
  r.slot < Word.size ∧ r.round.InWords ∧ r.value.InWords

/-- The numbers of the message, and the lengths of its lists, fit in words. -/
def Message.InWords : Message → Prop
  | .prepare m => m.sender < Word.size ∧ m.round.InWords ∧ m.slot < Word.size
  | .promise m => m.sender < Word.size ∧ m.round.InWords ∧ m.reports.length < Word.size ∧
      (∀ r ∈ m.reports, r.InWords) ∧ m.epochs.InWords
  | .accept m => m.sender < Word.size ∧ m.round.InWords ∧ m.slot < Word.size ∧ m.value.InWords ∧
      m.epochs.InWords
  | .learn m => m.sender < Word.size ∧ m.slot < Word.size ∧ m.round.InWords ∧ m.value.InWords ∧
      m.epochs.InWords
  | .catchUpRequest m => m.sender < Word.size ∧ m.ranges.length < Word.size ∧
      ∀ range ∈ m.ranges, range.1 < Word.size ∧ range.2 < Word.size
  | .catchUpResponse m => m.sender < Word.size ∧ m.decided.length < Word.size ∧
      ∀ d ∈ m.decided, d.1 < Word.size ∧ d.2.InWords

namespace Wire

/-! ### Numbers -/

/-- The reader takes what the writer wrote and leaves what follows. -/
def Restores {α : Type} (read : Reader α) (write : α → List UInt8) (a : α) : Prop :=
  ∀ rest, read (write a ++ rest) = some (a, rest)

theorem readBytes_append (bytes rest : List UInt8) :
    readBytes bytes.length (bytes ++ rest) = some (bytes, rest) := by
  simp [readBytes]

theorem readBytes_littleEndian (width n : Nat) (rest : List UInt8) :
    readBytes width (littleEndian width n ++ rest) = some (littleEndian width n, rest) := by
  have h := readBytes_append (littleEndian width n) rest
  rwa [length_littleEndian] at h

/-- Numbers below `2 ^ 32` are read back by readers of either width. -/
theorem restores_nat_half {n : Nat} (w : Width) (h : n < Word.halfSize) :
    Restores (readNat w) writeNat n := by
  intro rest
  unfold Word.halfSize at h
  unfold writeNat
  split
  · rename_i hn
    have hbyte : (UInt8.ofNat n).toNat = n := by
      rw [UInt8.toNat_ofNat']
      omega
    have hle : UInt8.ofNat n ≤ 250 := by
      rw [UInt8.le_iff_toNat_le, hbyte]
      exact hn
    simp only [readNat, List.singleton_append, if_pos hle, hbyte]
  split
  · rename_i hn
    have hback := ofLittleEndian_littleEndian 2 n hn
    simp [readNat, Width.following, readBytes_littleEndian, hback]
  · have hback := ofLittleEndian_littleEndian 4 n h
    simp [readNat, Width.following, readBytes_littleEndian, hback]

/-- Numbers that fit in words are read back. -/
theorem restores_nat {n : Nat} (h : n < Word.size) : Restores (readNat .full) writeNat n := by
  by_cases hhalf : n < Word.halfSize
  · exact restores_nat_half .full hhalf
  intro rest
  have hback := ofLittleEndian_littleEndian 8 n h
  have hwrite : writeNat n = 253 :: littleEndian 8 n := by
    unfold Word.halfSize at hhalf
    unfold writeNat
    rw [if_neg (by omega), if_neg (by omega), if_neg (by omega)]
  rw [hwrite]
  simp [readNat, Width.following, readBytes_littleEndian, hback]

/-! ### Parts of messages -/

section Lists

variable {α β : Type} {read : Reader α} {write : α → List UInt8}

theorem readMany_flatMap (xs done : List α) (h : ∀ x ∈ xs, Restores read write x)
    (rest : List UInt8) :
    readMany read xs.length done (xs.flatMap write ++ rest) = some (done.reverse ++ xs, rest) := by
  induction xs generalizing done with
  | nil => simp [readMany]
  | cons x xs ih =>
    have hx := h x List.mem_cons_self (xs.flatMap write ++ rest)
    have hxs := ih (x :: done) fun y hy => h y (List.mem_cons_of_mem x hy)
    simp only [List.flatMap_cons, List.append_assoc, List.length_cons, readMany, hx, hxs]
    simp

/-- Lists are read back if their elements are. -/
theorem restores_list {xs : List α} (hlength : xs.length < Word.size)
    (h : ∀ x ∈ xs, Restores read write x) : Restores (readList read) (writeList write) xs := by
  intro rest
  have hcount := restores_nat hlength (xs.flatMap write ++ rest)
  have hmany := readMany_flatMap xs [] h rest
  simp only [readList, writeList, List.append_assoc, hcount, Option.bind_eq_bind, Option.bind_some]
  exact hmany

theorem restores_pair {read' : Reader β} {write' : β → List UInt8} {p : α × β}
    (h : Restores read write p.1) (h' : Restores read' write' p.2) :
    Restores (readPair read read') (writePair write write') p := by
  intro rest
  simp only [readPair, writePair, List.append_assoc, h (write' p.2 ++ rest), h' rest,
    Option.bind_eq_bind, Option.bind_some]
  rfl

end Lists

theorem restores_round {r : Round} (h : r.InWords) : Restores readRound writeRound r := by
  intro rest
  simp only [readRound, writeRound, List.append_assoc, restores_nat h.1 (writeNat r.owner ++ rest),
    restores_nat h.2 rest, Option.bind_eq_bind, Option.bind_some]
  rfl

theorem restores_byteString {bytes : List UInt8} (h : bytes.length < Word.size) :
    Restores readByteString writeByteString bytes := by
  intro rest
  simp only [readByteString, writeByteString, List.append_assoc, restores_nat h (bytes ++ rest),
    readBytes_append, Option.bind_eq_bind, Option.bind_some]

theorem restores_value {v : Value} (h : v.InWords) : Restores readValue writeValue v := by
  intro rest
  have hkind : kindIndex v.kind < Word.halfSize := by cases v.kind <;> decide
  have hindex : kindOfIndex (kindIndex v.kind) = some v.kind := by cases v.kind <;> rfl
  simp only [readValue, writeValue, List.append_assoc,
    restores_nat_half .half hkind (writeByteString v.payload ++ rest), restores_byteString h rest,
    hindex, Option.bind_eq_bind, Option.bind_some]
  rfl

theorem restores_epochs {v : EpochVector} (h : v.InWords) : Restores readEpochs writeEpochs v := by
  intro rest
  have hlist := restores_list h.1 (fun epoch hepoch => restores_nat (h.2 epoch hepoch)) rest
  simp only [readEpochs, writeEpochs, hlist, Option.bind_eq_bind, Option.bind_some]
  rfl

theorem restores_report {r : Report} (h : r.InWords) : Restores readReport writeReport r := by
  intro rest
  simp only [readReport, writeReport, List.append_assoc,
    restores_nat h.1 (writeRound r.round ++ (writeValue r.value ++ rest)),
    restores_round h.2.1 (writeValue r.value ++ rest), restores_value h.2.2 rest,
    Option.bind_eq_bind, Option.bind_some]
  rfl

/-! ### Messages -/

/-- Messages are read back. -/
theorem restores_message {m : Message} (h : m.InWords) : Restores readMessage writeMessage m := by
  intro rest
  have hindex : ∀ {i : Nat}, i < 6 → ∀ rest, readNat .half (writeNat i ++ rest) = some (i, rest) :=
    fun hi rest => restores_nat_half .half (Nat.lt_trans hi (by decide)) rest
  cases m with
  | prepare m =>
    obtain ⟨hsender, hround, hslot⟩ := h
    simp only [readMessage, writeMessage, List.append_assoc, hindex (show 0 < 6 by decide), readBody,
      restores_nat hsender _, restores_round hround _, restores_nat hslot _, Option.bind_eq_bind,
      Option.bind_some]
    rfl
  | promise m =>
    obtain ⟨hsender, hround, hlength, hreports, hepochs⟩ := h
    have hlist := restores_list hlength fun r hr => restores_report (hreports r hr)
    simp only [readMessage, writeMessage, List.append_assoc, hindex (show 1 < 6 by decide), readBody,
      restores_nat hsender _, restores_round hround _, hlist _, restores_epochs hepochs _,
      Option.bind_eq_bind, Option.bind_some]
    rfl
  | accept m =>
    obtain ⟨hsender, hround, hslot, hvalue, hepochs⟩ := h
    simp only [readMessage, writeMessage, List.append_assoc, hindex (show 2 < 6 by decide), readBody,
      restores_nat hsender _, restores_round hround _, restores_nat hslot _, restores_value hvalue _,
      restores_epochs hepochs _, Option.bind_eq_bind, Option.bind_some]
    rfl
  | learn m =>
    obtain ⟨hsender, hslot, hround, hvalue, hepochs⟩ := h
    simp only [readMessage, writeMessage, List.append_assoc, hindex (show 3 < 6 by decide), readBody,
      restores_nat hsender _, restores_nat hslot _, restores_round hround _, restores_value hvalue _,
      restores_epochs hepochs _, Option.bind_eq_bind, Option.bind_some]
    rfl
  | catchUpRequest m =>
    obtain ⟨hsender, hlength, hranges⟩ := h
    have hlist := restores_list hlength fun range hrange =>
      restores_pair (restores_nat (hranges range hrange).1) (restores_nat (hranges range hrange).2)
    simp only [readMessage, writeMessage, List.append_assoc, hindex (show 4 < 6 by decide), readBody,
      restores_nat hsender _, hlist _, Option.bind_eq_bind, Option.bind_some]
    rfl
  | catchUpResponse m =>
    obtain ⟨hsender, hlength, hdecided⟩ := h
    have hlist := restores_list hlength fun d hd =>
      restores_pair (restores_nat (hdecided d hd).1) (restores_value (hdecided d hd).2)
    simp only [readMessage, writeMessage, List.append_assoc, hindex (show 5 < 6 by decide), readBody,
      restores_nat hsender _, hlist _, Option.bind_eq_bind, Option.bind_some]
    rfl

/-- Messages are read back with their source. -/
theorem restores_envelope {e : Envelope} (hsource : e.source < Word.size)
    (hmessage : e.message.InWords) : Restores readEnvelope writeEnvelope e := by
  intro rest
  simp only [readEnvelope, writeEnvelope, List.append_assoc, restores_nat hsource _,
    restores_message hmessage rest, Option.bind_eq_bind, Option.bind_some]
  rfl

/-- **A message within the limit arrives as it was sent.** -/
theorem carry_eq_ok {e : Envelope} (hsource : e.source < Word.size) (hmessage : e.message.InWords)
    (hsize : (writeEnvelope e).length ≤ maxMessageSize) : carry e = .ok e := by
  have hread := restores_envelope hsource hmessage []
  rw [List.append_nil] at hread
  have hencode : encode e = .ok (writeEnvelope e) := if_neg (Nat.not_lt.mpr hsize)
  have hdecode : decode (writeEnvelope e) = .ok e := by
    unfold decode
    rw [if_neg (Nat.not_lt.mpr hsize), hread]
  rw [carry, hencode]
  exact hdecode

end Wire

end ReplicatedLog
