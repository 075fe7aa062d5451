import Mathlib.Algebra.Group.Nat.Defs
import ReplicatedLog.Proofs.RoundTrip

/-!
# What readers take

A reader takes its value from a definite part at the front of the bytes, and would take the same from
this part whatever followed it (`Wire.Takes`). What it gives fits in words. It may have been written in
a longer form than a writer would use, but never in a shorter one (`Wire.Reads`).

This holds of numbers (`Wire.reads_nat`), and from there on of everything that is read one part after
another (`Wire.Reads.bind`), up to whole messages with their source (`Wire.reads_envelope`).
-/

namespace ReplicatedLog

/-- The numbers of the message, the lengths of its lists, and its source fit in words. -/
def Envelope.InWords (e : Envelope) : Prop := e.source < Word.size ∧ e.message.InWords

namespace Wire

/-- The reader takes `used`, and nothing that follows it. -/
def Takes {α : Type} (read : Reader α) (used : List UInt8) (a : α) : Prop :=
  ∀ rest, read (used ++ rest) = some (a, rest)

/-- Whatever the reader gives fits, and was taken from a part of the bytes. A writer needs no more bytes
for it than that part has and `extra` more. -/
def Reads {α : Type} (read : Reader α) (Fits : α → Prop) (write : α → List UInt8) (extra : Nat) :
    Prop :=
  ∀ bytes a rest, read bytes = some (a, rest) → Fits a ∧ ∃ used, bytes = used ++ rest ∧
    Takes read used a ∧ (write a).length ≤ extra + used.length

section Parts

variable {α β : Type} {read : Reader α} {Fits : α → Prop} {write : α → List UInt8} {extra : Nat}
  {read' : Reader β} {Fits' : β → Prop} {write' : β → List UInt8}

/-- Nothing is read. -/
theorem reads_pure {a : α} (h : Fits a) (hlength : (write a).length ≤ extra) :
    Reads (fun bytes => some (a, bytes)) Fits write extra := by
  intro bytes a' rest hread
  cases hread
  exact ⟨h, [], rfl, fun _ => rfl, hlength⟩

/-- One part is read, then what follows it. The bytes of the part may be used up by the whole. -/
theorem Reads.bind {next : α × List UInt8 → Option (β × List UInt8)}
    (h : Reads read Fits write 0) (hnext : ∀ a, Fits a →
      Reads (fun bytes => next (a, bytes)) Fits' write' (extra + (write a).length)) :
    Reads (fun bytes => read bytes >>= next) Fits' write' extra := by
  intro bytes b rest hread
  obtain ⟨⟨a, bytes'⟩, ha, hb⟩ := Option.bind_eq_some_iff.mp hread
  obtain ⟨hfits, used, rfl, htakes, hlength⟩ := h _ _ _ ha
  obtain ⟨hfits', used', rfl, htakes', hlength'⟩ := hnext a hfits _ _ _ hb
  refine ⟨hfits', used ++ used', by rw [List.append_assoc], fun rest' => ?_, ?_⟩
  · simp only [List.append_assoc, htakes (used' ++ rest'), Option.bind_eq_bind, Option.bind_some]
    exact htakes' rest'
  · rw [List.length_append]
    omega

/-- A look at what was read so far may end the reading. -/
theorem Reads.guard {o : Option α} {next : α → Reader β}
    (h : ∀ a, o = some a → Reads (next a) Fits' write' extra) :
    Reads (fun bytes => o >>= fun a => next a bytes) Fits' write' extra := by
  cases o with
  | none =>
    intro _ _ _ hread
    cases hread
  | some a => exact h a rfl

theorem reads_readMany (h : Reads read Fits write 0) (count : Nat) {done : List α}
    (hdone : ∀ a ∈ done, Fits a) (hlength : (done.reverse.flatMap write).length ≤ extra) :
    Reads (readMany read count done)
      (fun xs => xs.length = done.length + count ∧ ∀ a ∈ xs, Fits a) (List.flatMap write) extra := by
  induction count generalizing done extra with
  | zero =>
    unfold readMany
    refine reads_pure ⟨by simp, fun a ha => hdone a (List.mem_reverse.mp ha)⟩ hlength
  | succ count ih =>
    have hbind : readMany read (count + 1) done = fun bytes =>
        read bytes >>= fun r => readMany read count (r.1 :: done) r.2 := by
      funext bytes
      simp only [readMany]
      cases read bytes <;> rfl
    have hcount : done.length + (count + 1) = (done.length + 1) + count := by omega
    rw [hbind, hcount]
    refine h.bind fun a ha => ih (List.forall_mem_cons.mpr ⟨ha, hdone⟩) ?_
    simpa using hlength

end Parts

/-! ### Numbers -/

theorem reads_bytes (count : Nat) :
    Reads (readBytes count) (fun bytes => bytes.length = count) id 0 := by
  intro bytes taken rest h
  unfold readBytes at h
  by_cases hlength : (bytes.take count).length = count
  · rw [if_pos hlength] at h
    cases h
    refine ⟨hlength, _, (List.take_append_drop count bytes).symm, fun rest' => ?_, by simp⟩
    have hback := readBytes_append (bytes.take count) rest'
    rwa [hlength] at hback
  · rw [if_neg hlength] at h
    cases h

theorem ofLittleEndian_lt (bytes : List UInt8) : ofLittleEndian bytes < 256 ^ bytes.length := by
  induction bytes with
  | nil => exact Nat.one_pos
  | cons b bytes ih =>
    have hb := b.toNat_lt
    rw [ofLittleEndian, List.length_cons, Nat.pow_succ]
    omega

/-- A marker announces two, four or eight bytes. -/
theorem Width.following_cases {w : Width} {marker : UInt8} {count : Nat}
    (h : w.following marker = some count) : count = 2 ∨ count = 4 ∨ count = 8 := by
  unfold following at h
  grind

/-- A number that some bytes hold is written in no more bytes than these and a marker. -/
theorem length_writeNat_le {n count : Nat} (hcount : count = 2 ∨ count = 4 ∨ count = 8)
    (h : n < 256 ^ count) : (writeNat n).length ≤ count + 1 := by
  unfold writeNat
  rcases hcount with rfl | rfl | rfl
  · grind [length_littleEndian]
  · grind [length_littleEndian]
  · grind [length_littleEndian]

/-- A number fits in a word, and its shortest form is no longer than the one that was read. -/
theorem reads_nat (w : Width) : Reads (readNat w) (· < Word.size) writeNat 0 := by
  intro bytes n rest h
  cases bytes with
  | nil => cases h
  | cons marker bytes =>
    by_cases hmarker : marker ≤ 250
    · rw [readNat, if_pos hmarker] at h
      cases h
      have hle : marker.toNat ≤ 250 := UInt8.le_iff_toNat_le.mp hmarker
      refine ⟨Nat.lt_of_le_of_lt hle (by decide), [marker], rfl, fun rest => ?_, ?_⟩
      · simp only [readNat, List.singleton_append, if_pos hmarker]
      · rw [writeNat, if_pos hle]
        exact Nat.le_refl _
    · rw [readNat, if_neg hmarker] at h
      obtain ⟨count, hfollowing, h⟩ := Option.bind_eq_some_iff.mp h
      obtain ⟨⟨digits, bytes'⟩, hread, hret⟩ := Option.bind_eq_some_iff.mp h
      cases hret
      obtain ⟨rfl, used, rfl, htakes, hlength⟩ := reads_bytes count _ _ _ hread
      have hcount := Width.following_cases hfollowing
      have hlt := ofLittleEndian_lt digits
      have hwidth : digits.length ≤ 8 := by omega
      have hfits := Nat.lt_of_lt_of_le hlt (Nat.pow_le_pow_right (by decide) hwidth)
      refine ⟨hfits, marker :: used, rfl, fun rest => ?_, ?_⟩
      · simp only [readNat, List.cons_append, if_neg hmarker, hfollowing, htakes rest,
          Option.bind_eq_bind, Option.bind_some]
        rfl
      · have hwrite := length_writeNat_le hcount hlt
        simp only [id_eq, List.length_cons] at hlength ⊢
        omega

/-! ### Parts of messages -/

theorem reads_list {α : Type} {read : Reader α} {Fits : α → Prop} {write : α → List UInt8}
    (h : Reads read Fits write 0) : Reads (readList read)
      (fun xs => xs.length < Word.size ∧ ∀ x ∈ xs, Fits x) (writeList write) 0 := by
  refine (reads_nat .full).bind fun count hcount => ?_
  have hmany : Reads (readMany read count []) (fun xs => xs.length = 0 + count ∧ ∀ x ∈ xs, Fits x)
      (List.flatMap write) 0 := reads_readMany h count (by simp) (Nat.le_refl 0)
  intro bytes xs rest hread
  obtain ⟨⟨hlength, hfits⟩, used, hused, htakes, hsize⟩ := hmany bytes xs rest hread
  rw [Nat.zero_add] at hlength
  subst hlength
  refine ⟨⟨hcount, hfits⟩, used, hused, htakes, ?_⟩
  rw [writeList, List.length_append]
  omega

theorem reads_pair {α β : Type} {read : Reader α} {Fits : α → Prop} {write : α → List UInt8}
    {read' : Reader β} {Fits' : β → Prop} {write' : β → List UInt8} (h : Reads read Fits write 0)
    (h' : Reads read' Fits' write' 0) : Reads (readPair read read')
      (fun p => Fits p.1 ∧ Fits' p.2) (writePair write write') 0 := by
  refine h.bind fun a ha => ?_
  refine h'.bind fun b hb => ?_
  refine reads_pure ⟨ha, hb⟩ ?_
  simp [writePair]

theorem reads_round : Reads readRound Round.InWords writeRound 0 := by
  refine (reads_nat .full).bind fun counter hcounter => ?_
  refine (reads_nat .full).bind fun owner howner => ?_
  refine reads_pure ⟨hcounter, howner⟩ ?_
  simp [writeRound]

/-- Each kind has one number. -/
theorem kindIndex_of_kindOfIndex {index : Nat} {kind : Value.Kind}
    (h : kindOfIndex index = some kind) : kindIndex kind = index := by
  unfold kindOfIndex at h
  split at h <;> cases h <;> rfl

theorem reads_byteString :
    Reads readByteString (fun bytes => bytes.length < Word.size) writeByteString 0 := by
  refine (reads_nat .full).bind fun count hcount => ?_
  intro bytes taken rest hread
  obtain ⟨rfl, used, hused, htakes, hsize⟩ := reads_bytes count bytes taken rest hread
  refine ⟨hcount, used, hused, htakes, ?_⟩
  rw [id_eq] at hsize
  rw [writeByteString, List.length_append]
  omega

theorem reads_value : Reads readValue Value.InWords writeValue 0 := by
  refine (reads_nat .half).bind fun index _ => ?_
  refine Reads.guard fun kind hkind => ?_
  refine reads_byteString.bind fun payload hpayload => ?_
  refine reads_pure hpayload ?_
  simp [writeValue, kindIndex_of_kindOfIndex hkind]

theorem reads_epochs : Reads readEpochs EpochVector.InWords writeEpochs 0 := by
  refine (reads_list (reads_nat .full)).bind fun entries hentries => ?_
  refine reads_pure hentries ?_
  simp [writeEpochs]

theorem reads_report : Reads readReport Report.InWords writeReport 0 := by
  refine (reads_nat .full).bind fun slot hslot => ?_
  refine reads_round.bind fun round hround => ?_
  refine reads_value.bind fun value hvalue => ?_
  refine reads_pure ⟨hslot, hround, hvalue⟩ ?_
  simp [writeReport, Nat.add_assoc]

/-! ### Messages -/

/-- The fields of a message are read after the number of its kind. -/
theorem reads_body (index : Nat) :
    Reads (readBody index) Message.InWords writeMessage (0 + (writeNat index).length) := by
  match index with
  | 0 =>
    refine (reads_nat .full).bind fun sender hsender => ?_
    refine reads_round.bind fun round hround => ?_
    refine (reads_nat .full).bind fun slot hslot => ?_
    refine reads_pure ⟨hsender, hround, hslot⟩ ?_
    simp [writeMessage, Nat.add_assoc]
  | 1 =>
    refine (reads_nat .full).bind fun sender hsender => ?_
    refine reads_round.bind fun round hround => ?_
    refine (reads_list reads_report).bind fun reports hreports => ?_
    refine reads_epochs.bind fun epochs hepochs => ?_
    refine reads_pure ⟨hsender, hround, hreports.1, hreports.2, hepochs⟩ ?_
    simp [writeMessage, Nat.add_assoc]
  | 2 =>
    refine (reads_nat .full).bind fun sender hsender => ?_
    refine reads_round.bind fun round hround => ?_
    refine (reads_nat .full).bind fun slot hslot => ?_
    refine reads_value.bind fun value hvalue => ?_
    refine reads_epochs.bind fun epochs hepochs => ?_
    refine reads_pure ⟨hsender, hround, hslot, hvalue, hepochs⟩ ?_
    simp [writeMessage, Nat.add_assoc]
  | 3 =>
    refine (reads_nat .full).bind fun sender hsender => ?_
    refine (reads_nat .full).bind fun slot hslot => ?_
    refine reads_round.bind fun round hround => ?_
    refine reads_value.bind fun value hvalue => ?_
    refine reads_epochs.bind fun epochs hepochs => ?_
    refine reads_pure ⟨hsender, hslot, hround, hvalue, hepochs⟩ ?_
    simp [writeMessage, Nat.add_assoc]
  | 4 =>
    refine (reads_nat .full).bind fun sender hsender => ?_
    refine (reads_list (reads_pair (reads_nat .full) (reads_nat .full))).bind
      fun ranges hranges => ?_
    refine reads_pure ⟨hsender, hranges⟩ ?_
    simp [writeMessage, Nat.add_assoc]
  | 5 =>
    refine (reads_nat .full).bind fun sender hsender => ?_
    refine (reads_list (reads_pair (reads_nat .full) reads_value)).bind fun decided hdecided => ?_
    refine reads_pure ⟨hsender, hdecided⟩ ?_
    simp [writeMessage, Nat.add_assoc]
  | _ + 6 =>
    intro _ _ _ hread
    cases hread

theorem reads_message : Reads readMessage Message.InWords writeMessage 0 :=
  (reads_nat .half).bind fun index _ => reads_body index

theorem reads_envelope : Reads readEnvelope Envelope.InWords writeEnvelope 0 := by
  refine (reads_nat .full).bind fun source hsource => ?_
  refine reads_message.bind fun message hmessage => ?_
  refine reads_pure ⟨hsource, hmessage⟩ ?_
  simp [writeEnvelope]

end Wire

end ReplicatedLog
