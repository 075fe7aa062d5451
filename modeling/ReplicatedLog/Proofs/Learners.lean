import ReplicatedLog.Proofs.Ballots
import ReplicatedLog.Proofs.World

/-!
# What learners have learned

In every reachable world a learner knows only values that were chosen (`Learner.Recorded`): its
tallies count votes that were cast, one for each sender, all in one round and for one value, so a
slot that they settle has a value that a quorum chose; and what it takes from the answers of others,
delivers, or answers itself, was chosen too. It delivers slots one after another, from the first on.
-/

namespace ReplicatedLog

open Function

/-- A value was chosen for a slot, in some round. -/
def Decided (q : Nat) (sent : List Outgoing) (slot : Nat) (v : Value) : Prop :=
  ∃ r, Chosen q sent r slot v

theorem Decided.append {q slot : Nat} {sent : List Outgoing} {v : Value}
    (h : Decided q sent slot v) (out : List Outgoing) : Decided q (sent ++ out) slot v :=
  h.imp fun _ h => h.append out

namespace Tally

/-- The tally of a slot counts votes that were cast, and it is learned only with a chosen value. -/
structure Sound (q : Nat) (sent : List Outgoing) (slot : Nat) (t : Tally) : Prop where
  /-- It counts votes for the slot, in its round. -/
  said : ∀ vote ∈ t.votes, Said sent (.learn vote) ∧ vote.slot = slot ∧ vote.round = t.round
  /-- It counts one vote of a sender. -/
  nodup : (t.votes.map Learn.sender).Nodup
  /-- It counts votes for one value. -/
  agree : ∀ vote ∈ t.votes, t.candidate = some vote.value
  /-- What it is learned with was chosen. -/
  learned : ∀ v, t.learned = some v → Decided q sent slot v

variable {q slot : Nat} {sent : List Outgoing} {t t' : Tally}

theorem sound_default : Sound q sent slot default where
  said := by simp [default]
  nodup := by simp [default]
  agree := by simp [default]
  learned := by simp [default]

theorem Sound.append (h : Sound q sent slot t) (out : List Outgoing) :
    Sound q (sent ++ out) slot t where
  said vote hvote := (h.said vote hvote).imp_left (·.append out)
  nodup := h.nodup
  agree := h.agree
  learned v hv := (h.learned v hv).append out

theorem Sound.uniform (h : Sound q sent slot t) : t.Uniform slot where
  slot_eq vote hvote := (h.said vote hvote).2.1
  round_eq vote hvote := (h.said vote hvote).2.2
  agree := h.agree
  nodup := h.nodup

/-- Counting a vote that was cast keeps a tally sound. -/
theorem Sound.count (h : Sound q sent slot t) {mode : Mode} {own : EpochVector} {m : Learn}
    (hsaid : Said sent (.learn m)) (hslot : m.slot = slot)
    (hcount : t.count mode own m = some t') : Sound q sent slot t' := by
  have huniform := h.uniform.count hslot hcount
  obtain ⟨hlearned, -, -, -, rfl⟩ := count_eq_some hcount
  refine ⟨fun vote hvote => ⟨?_, huniform.slot_eq vote hvote, huniform.round_eq vote hvote⟩,
    huniform.nodup, huniform.agree, fun v hv => ?_⟩
  · rcases List.mem_append.mp hvote with hvote | hvote
    · exact (h.said vote (mem_votes_of_mem_joined hvote)).1
    · rw [List.mem_singleton.mp hvote]
      exact hsaid
  · rw [show t.learned = some v from hv] at hlearned
    cases hlearned

/-- A quorum of votes that a tally counts chose their value. -/
theorem Sound.settle (h : Sound q sent slot t) (hquorum : q ≤ t.votes.length) :
    Sound q sent slot { t with learned := t.candidate } where
  said := h.said
  nodup := h.nodup
  agree := h.agree
  learned v hv := by
    refine ⟨t.round, t.votes.map Learn.sender, h.nodup, by rwa [List.length_map], fun i hi => ?_⟩
    obtain ⟨vote, hvote, rfl⟩ := List.mem_map.mp hi
    obtain ⟨hsaid, rfl, hround⟩ := h.said vote hvote
    obtain rfl : v = vote.value := Option.some.inj (hv.symm.trans (h.agree vote hvote))
    exact ⟨vote.epochs, hround ▸ hsaid⟩

/-- Taking the chosen slots of an answer keeps a tally sound. -/
theorem Sound.takes (h : Sound q sent slot t) {m : CatchUpResponse}
    (hdecided : ∀ slot v, (slot, v) ∈ m.decided → Decided q sent slot v)
    (htakes : Takes m slot t t') : Sound q sent slot t' := by
  rcases htakes with rfl | ⟨value, hmem, -, rfl⟩
  · exact h
  · refine ⟨h.said, h.nodup, h.agree, fun v hv => ?_⟩
    obtain rfl := Option.some.inj hv
    exact hdecided slot value hmem

end Tally

namespace Learner

/-- What the learner `i` knows, has delivered (`log`) and has answered was chosen. -/
structure Recorded (q : Nat) (sent : List Outgoing) (log : List (Nat × Value)) (i : Nat)
    (l : Learner) : Prop where
  /-- A quorum of votes settles a slot. -/
  quorum_eq : l.quorum = q
  /-- The tallies are sound. -/
  sound : ∀ slot, (l.tally slot).Sound q sent slot
  /-- The slots delivered are the first ones, in order. -/
  slots : log.map Prod.fst = List.range' 1 log.length
  /-- The slot after them is next. -/
  next_eq : l.next = 1 + log.length
  /-- What was delivered was chosen. -/
  logged : ∀ slot v, (slot, v) ∈ log → Decided q sent slot v
  /-- What was answered was chosen. -/
  answered : ∀ m, Said sent (.catchUpResponse m) → m.sender = i →
    ∀ slot v, (slot, v) ∈ m.decided → Decided q sent slot v

variable {q i : Nat} {sent out : List Outgoing} {log delivered : List (Nat × Value)}
  {l l' : Learner}

theorem recorded_start {l : Learner} (i : Nat) (hquorum : l.quorum = q) (hwindow : l.window = {})
    (hnext : l.next = 1) : Recorded q [] [] i l where
  quorum_eq := hquorum
  sound slot := by
    rw [tally, hwindow, Window.get?_empty]
    exact Tally.sound_default
  slots := rfl
  next_eq := hnext
  logged slot v h := (List.not_mem_nil h).elim
  answered m hm := absurd hm not_said_nil

/-- What others say, and what is not an answer, does not disturb the record. -/
theorem Recorded.append (h : Recorded q sent log i l)
    (hout : ∀ m, Said out (.catchUpResponse m) → m.sender ≠ i) :
    Recorded q (sent ++ out) log i l where
  quorum_eq := h.quorum_eq
  sound slot := (h.sound slot).append out
  slots := h.slots
  next_eq := h.next_eq
  logged slot v hmem := (h.logged slot v hmem).append out
  answered m hm hi slot v hmem := by
    rcases said_append.mp hm with hm | hm
    · exact (h.answered m hm hi slot v hmem).append out
    · exact absurd hi (hout m hm)

theorem response_ne_of_isRequest (hout : ∀ o ∈ out, l.IsRequest o) (m : CatchUpResponse)
    (h : Said out (.catchUpResponse m)) : m.sender ≠ i := by
  obtain ⟨o, ho, heq⟩ := h
  obtain ⟨target, ranges, rfl, -⟩ := hout o ho
  cases heq

/-- Delivering slots whose tallies are sound continues the log with chosen values. -/
theorem Recorded.deliver (h : Recorded q sent log i l) {tally : Nat → Tally} (hsame : Same l l')
    (hsound : ∀ slot, (tally slot).Sound q sent slot)
    (hdelivers : Delivers l.next tally l' delivered) :
    Recorded q sent (log ++ delivered) i l' where
  quorum_eq := hsame.quorum_eq.trans h.quorum_eq
  sound slot := by
    rcases hdelivers.tally_cases slot with ⟨-, hblank⟩ | ⟨decided, heq⟩
    · rw [hblank]
      exact Tally.sound_default
    · rw [heq]
      exact ⟨(hsound slot).said, (hsound slot).nodup, (hsound slot).agree, (hsound slot).learned⟩
  slots := by
    rw [List.map_append, h.slots, hdelivers.slots, h.next_eq, List.length_append,
      List.range'_append_1]
  next_eq := by
    rw [hdelivers.next_eq, h.next_eq, List.length_append, Nat.add_assoc]
  logged slot v hmem := by
    rcases List.mem_append.mp hmem with hmem | hmem
    · exact h.logged slot v hmem
    · exact (hsound slot).learned v (hdelivers.learned_of_mem slot v hmem)
  answered := h.answered

/-- **Learners keep their record** in every step, if votes that arrive were cast and answers that
arrive hold chosen values. -/
theorem Recorded.act (h : Recorded q sent log i l) {x : Input} {d : Delivery}
    (hsaid : ∀ m, x = .learn m → Said sent (.learn m))
    (hdecided : ∀ m, x = .response m → ∀ slot v, (slot, v) ∈ m.decided → Decided q sent slot v)
    (hact : l.act x = .ok (l', d)) :
    Recorded q (sent ++ d.outbound) (log ++ d.delivered) i l' := by
  cases acts_of_act hact with
  | quiet id_eq quorum_eq mode_eq epochs_eq next_eq tally_eq isRequest =>
    rw [List.append_nil]
    exact Recorded.append ⟨quorum_eq.trans h.quorum_eq, tally_eq ▸ h.sound, h.slots,
      next_eq.trans h.next_eq, h.logged, h.answered⟩ (response_ne_of_isRequest isRequest)
  | @answer m target decided learned_of_mem =>
    rw [List.append_nil]
    refine ⟨h.quorum_eq, fun slot => (h.sound slot).append _, h.slots, h.next_eq,
      fun slot v hmem => (h.logged slot v hmem).append _, fun m hm hi slot v hmem => ?_⟩
    rcases said_append.mp hm with hm | hm
    · exact (h.answered m hm hi slot v hmem).append _
    · rw [said_singleton, Outgoing.message, Message.catchUpResponse.injEq] at hm
      subst hm
      exact ((h.sound slot).learned v (learned_of_mem slot v hmem)).append _
  | @count m _ t same counts next_eq count_eq unsettled tally_eq =>
    rw [List.append_nil, List.append_nil]
    refine ⟨same.quorum_eq.trans h.quorum_eq, fun slot => ?_, h.slots, next_eq.trans h.next_eq,
      h.logged, h.answered⟩
    rw [tally_eq, update_apply]
    split
    · rename_i hslot
      exact (h.sound slot).count (hsaid m rfl) hslot.symm (hslot ▸ count_eq)
    · exact h.sound slot
  | @settle m _ t delivered outbound same counts count_eq settled delivers isRequest =>
    refine (h.deliver same (fun slot => ?_) delivers).append (response_ne_of_isRequest isRequest)
    rw [update_apply]
    split
    · rename_i hslot
      refine ((h.sound slot).count (hsaid m rfl) hslot.symm (hslot ▸ count_eq)).settle ?_
      exact h.quorum_eq ▸ Mode.le_length_of_settles settled
    · exact h.sound slot
  | @take m _ tally delivered same takes delivers =>
    rw [List.append_nil]
    exact h.deliver same (fun slot => (h.sound slot).takes (hdecided m rfl) (takes slot)) delivers

end Learner

/-- In every reachable world, what the learners know was chosen. -/
theorem Reachable.learner_recorded {c : ReplicaSettings} {Env : World → Event → Prop} {w : World}
    (h : Reachable c Env w) (i : Nat) :
    (w.learners i).Recorded c.quorum w.sent (w.logs i) i := by
  refine h.learners (P := fun i l log sent => l.Recorded c.quorum sent log i)
    (fun i => Learner.recorded_start i rfl rfl rfl) (fun i l log sent out hout h => ?_) ?_ i
  · refine h.append fun m ⟨o, ho, heq⟩ hi => hout o ho ?_
    rw [Outgoing.author, heq, Message.author, hi]
  · intro w i x l d hw _ hallowed hrec hact
    refine (hrec i).act ?_ ?_ hact
    · rintro m rfl
      exact World.said_of_arrives hallowed.2
    · rintro m rfl slot v hmem
      exact (hrec m.sender).answered m (World.said_of_arrives hallowed.2) rfl slot v hmem

/-- What a learner knows after an allowed step was chosen. -/
theorem Reachable.recorded_of_act {c : ReplicaSettings} {Env : World → Event → Prop} {w : World}
    (h : Reachable c Env w) {i : Nat} {x : Learner.Input} {l : Learner} {d : Delivery}
    (hallowed : w.Allowed c.replicas (.learner i x)) (hact : (w.learners i).act x = .ok (l, d)) :
    l.Recorded c.quorum (w.sent ++ d.outbound) (w.logs i ++ d.delivered) i := by
  refine (h.learner_recorded i).act ?_ ?_ hact
  · rintro m rfl
    exact World.said_of_arrives hallowed.2
  · rintro m rfl slot v hmem
    exact (h.learner_recorded m.sender).answered m (World.said_of_arrives hallowed.2) rfl slot v hmem

end ReplicatedLog
