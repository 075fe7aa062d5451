import Mathlib.Algebra.GroupWithZero.Nat
import ReplicatedLog.Proofs.RoundTrip

/-!
# Sizes of messages

How many bytes a message takes (`Message.size`), in terms of what it carries: a number takes at most
nine bytes, a list those of its elements and its length. Votes and answers carry values that were
proposed, so their sizes are compared with the size of a proposal for the same slot: a reported vote
takes less than the proposal, a promise or an answer no more than one proposal for each slot that it
lists, and a little more.
-/

namespace ReplicatedLog

/-- The number of bytes of a message, with its source. -/
def Message.size (m : Message) : Nat := (Wire.writeEnvelope ⟨m.sender, m⟩).length

namespace Wire

/-! ### Parts of messages -/

/-- A number takes between one byte and nine. -/
theorem length_writeNat (n : Nat) : 0 < (writeNat n).length ∧ (writeNat n).length ≤ 9 := by
  unfold writeNat
  split
  · simp
  split
  · simp
  split <;> simp

theorem length_writeRound_le (r : Round) : (writeRound r).length ≤ 18 := by
  have hcounter := length_writeNat r.counter
  have howner := length_writeNat r.owner
  rw [writeRound, List.length_append]
  omega

theorem length_flatMap_le {α : Type} {write : α → List UInt8} {xs : List α} {most : Nat}
    (h : ∀ x ∈ xs, (write x).length ≤ most) : (xs.flatMap write).length ≤ xs.length * most := by
  induction xs with
  | nil => simp
  | cons x xs ih =>
    have hx := h x List.mem_cons_self
    have hxs := ih fun y hy => h y (List.mem_cons_of_mem x hy)
    rw [List.flatMap_cons, List.length_append, List.length_cons, Nat.succ_mul]
    omega

/-- A list takes what its elements take, and its length. -/
theorem length_writeList_le {α : Type} {write : α → List UInt8} {xs : List α} {most : Nat}
    (h : ∀ x ∈ xs, (write x).length ≤ most) :
    (writeList write xs).length ≤ 9 + xs.length * most := by
  have hlength := length_writeNat xs.length
  have hxs := length_flatMap_le h
  rw [writeList, List.length_append]
  omega

/-- A value takes its payload, and up to ten bytes more. -/
theorem length_writeValue (v : Value) :
    v.payload.length < (writeValue v).length ∧ (writeValue v).length ≤ v.payload.length + 10 := by
  have hlength := length_writeNat v.payload.length
  have hkind : (writeNat (kindIndex v.kind)).length = 1 := by cases v.kind <;> rfl
  rw [writeValue, writeByteString, List.length_append, List.length_append, hkind]
  omega

/-! ### Messages -/

/-- A proposal takes more than a report of a vote for it. -/
theorem length_writeReport_add_four_le (m : Accept) :
    (writeReport ⟨m.slot, m.round, m.value⟩).length + 4 ≤ (Message.accept m).size := by
  have hsource := length_writeNat m.sender
  have hepochs := length_writeNat m.epochs.entries.length
  have hindex := length_writeNat 2
  simp only [Message.size, Message.sender, writeEnvelope, writeMessage, writeReport, writeEpochs,
    writeList, List.length_append]
  omega

/-- A proposal takes more than its slot and its value. -/
theorem length_writePair_add_six_le (m : Accept) :
    (writePair writeNat writeValue (m.slot, m.value)).length + 6 ≤ (Message.accept m).size := by
  have hreport := length_writeReport_add_four_le m
  have hcounter := length_writeNat m.round.counter
  have howner := length_writeNat m.round.owner
  simp only [writeReport, writeRound, writePair, List.length_append] at hreport ⊢
  omega

/-- A proposal takes the bytes of its value and of its view of the membership, and little more. -/
theorem size_accept_le (m : Accept) :
    (Message.accept m).size ≤ m.value.payload.length + (writeEpochs m.epochs).length + 56 := by
  have hsender := length_writeNat m.sender
  have hround := length_writeRound_le m.round
  have hslot := length_writeNat m.slot
  have hvalue := (length_writeValue m.value).2
  have hindex : (writeNat 2).length = 1 := rfl
  simp only [Message.size, Message.sender, writeEnvelope, writeMessage, List.length_append, hindex]
  omega

theorem size_prepare_le (m : Prepare) : (Message.prepare m).size ≤ 46 := by
  have hsender := length_writeNat m.sender
  have hround := length_writeRound_le m.round
  have hslot := length_writeNat m.slot
  have hindex : (writeNat 0).length = 1 := rfl
  simp only [Message.size, Message.sender, writeEnvelope, writeMessage, List.length_append, hindex]
  omega

theorem size_promise_le (m : Promise) {most : Nat}
    (h : ∀ rep ∈ m.reports, (writeReport rep).length ≤ most) :
    (Message.promise m).size ≤ m.reports.length * most + (writeEpochs m.epochs).length + 46 := by
  have hsender := length_writeNat m.sender
  have hround := length_writeRound_le m.round
  have hreports := length_writeList_le h
  have hindex : (writeNat 1).length = 1 := rfl
  simp only [Message.size, Message.sender, writeEnvelope, writeMessage, List.length_append, hindex]
  omega

/-- A promise takes more than the values that it reports. -/
theorem sum_payload_le_size_promise (m : Promise) :
    (m.reports.map fun rep => rep.value.payload.length).sum ≤ (Message.promise m).size := by
  have hreports : ∀ reports : List Report,
      (reports.map fun rep => rep.value.payload.length).sum ≤
        (reports.flatMap writeReport).length := by
    intro reports
    induction reports with
    | nil => simp
    | cons rep reports ih =>
      have hvalue := (length_writeValue rep.value).1
      simp only [List.map_cons, List.sum_cons, List.flatMap_cons, writeReport, List.length_append]
      omega
  have hsum := hreports m.reports
  simp only [Message.size, writeEnvelope, writeMessage, writeList, List.length_append]
  omega

/-- A vote takes what a report of it takes, and the view of the membership. -/
theorem size_learn_le (m : Learn) : (Message.learn m).size ≤
    (writeReport ⟨m.slot, m.round, m.value⟩).length + (writeEpochs m.epochs).length + 19 := by
  have hsender := length_writeNat m.sender
  have hindex : (writeNat 3).length = 1 := rfl
  simp only [Message.size, Message.sender, writeEnvelope, writeMessage, writeReport,
    List.length_append, hindex]
  omega

theorem size_catchUpRequest_le (m : CatchUpRequest) :
    (Message.catchUpRequest m).size ≤ 18 * m.ranges.length + 28 := by
  have hsender := length_writeNat m.sender
  have hrange : ∀ range ∈ m.ranges, (writePair writeNat writeNat range).length ≤ 18 := by
    intro range _
    have hfirst := length_writeNat range.1
    have hlast := length_writeNat range.2
    rw [writePair, List.length_append]
    omega
  have hranges := length_writeList_le hrange
  have hindex : (writeNat 4).length = 1 := rfl
  simp only [Message.size, Message.sender, writeEnvelope, writeMessage, List.length_append, hindex]
  omega

theorem size_catchUpResponse_le (m : CatchUpResponse) {most : Nat}
    (h : ∀ d ∈ m.decided, (writePair writeNat writeValue d).length ≤ most) :
    (Message.catchUpResponse m).size ≤ m.decided.length * most + 28 := by
  have hsender := length_writeNat m.sender
  have hdecided := length_writeList_le h
  have hindex : (writeNat 5).length = 1 := rfl
  simp only [Message.size, Message.sender, writeEnvelope, writeMessage, List.length_append, hindex]
  omega

end Wire

end ReplicatedLog
