import Mathlib
import ReplicatedLog.Proofs.InWords
import ReplicatedLog.Proofs.Sizes
import ReplicatedLog.Service.Network

/-!
# Messages that a network carries

A network refuses messages beyond the limit on their size. That every proposal is within the limit
does not keep promises and answers within it: they carry the values of many slots, and nothing
splits them (`promise_may_be_too_large`). What does is the room for as many proposals as a promise or
an answer may list. `Reachable.sendable` bounds the size of every message of a world by what
proposals take (`Message.limit`); a network drops no message whose bound is within the limit, unless
one of its two replicas is cut off or missing. That the numbers of a message fit in words is no further
condition, if those of the settings and of what is brought in do.
-/

namespace ReplicatedLog

namespace Message

/-- The number of bytes of the view of the membership that a promise or a vote carries. -/
def viewSize : Message → Nat
  | .promise m => (Wire.writeEpochs m.epochs).length
  | .learn m => (Wire.writeEpochs m.epochs).length
  | _ => 0

/-- A bound on the bytes of a message, where proposals take at most `most` bytes, views of the
membership at most `view`, promises report at most `votes` votes, and no slot above `last` is
proposed for. -/
def limit (retention most view votes last : Nat) : Message → Nat
  | .prepare _ => 46
  | .promise _ => votes * most + view + 46
  | .accept _ => most
  | .learn _ => most + view + 15
  | .catchUpRequest _ => 18 * last + 28
  | .catchUpResponse _ => retention * most + 28

theorem InWords.sender_lt {m : Message} (h : m.InWords) : m.sender < Word.size := by
  cases m <;> exact h.1

end Message

/-- A network carries a message within the limit to a replica that it connects with the sender. -/
theorem Network.route_eq {n : Network} {m : Message} {target : Nat} (hwords : m.InWords)
    (hsize : m.size ≤ Wire.maxMessageSize) (hconnects : n.connects m.sender target = true) :
    n.route m.sender target m =
      ({ n with delivered := n.delivered + 1 }, [⟨m.sender, target, m⟩]) := by
  have hcarry : Wire.carry ⟨m.sender, m⟩ = .ok ⟨m.sender, m⟩ :=
    Wire.carry_eq_ok hwords.sender_lt hwords hsize
  rw [route, if_pos hconnects, hcarry]

/-- A network drops a message beyond the limit, whoever it is for. -/
theorem Network.route_of_lt {m : Message} (hsize : Wire.maxMessageSize < m.size) (n : Network)
    (target : Nat) : n.route m.sender target m = ({ n with dropped := n.dropped + 1 }, []) := by
  have hencode : Wire.encode ⟨m.sender, m⟩ = .error (.messageTooLarge m.size) := if_pos hsize
  unfold route
  split
  · rw [Wire.carry, hencode]
    rfl
  · rfl

variable {c : ReplicaSettings} {Env : World → Event → Prop} {w : World} {most view votes last : Nat}

namespace Reachable

/-- What was proposed takes less than the proposal. -/
theorem length_writeReport_le
    (hmost : ∀ m, Said w.sent (.accept m) → (Message.accept m).size ≤ most) (rep : Report)
    (h : Proposed w.sent rep.round rep.slot rep.value) : (Wire.writeReport rep).length + 4 ≤ most := by
  obtain ⟨sender, epochs, hsaid⟩ := h
  exact (Wire.length_writeReport_add_four_le _).trans (hmost _ hsaid)

/-- **The size of every message is bounded** by what proposals take, and a network that connects the
sender with a replica carries the message there, as it is, if the bound is within the limit and its
numbers fit in words, as they do if those of the settings and of all that is brought in fit. -/
theorem sendable (h : Reachable c Env w)
    (hmost : ∀ m, Said w.sent (.accept m) → (Message.accept m).size ≤ most)
    (hview : ∀ m, Said w.sent m → m.viewSize ≤ view) (hlast : ProposedUpTo last w.sent)
    (hvotes : last < votes ∨ (∀ w e, Env w e → e.Ordinary) ∧ c.retention < votes)
    {m : Message} (hm : Said w.sent m) :
    m.size ≤ m.limit c.retention most view votes last ∧
      (m.limit c.retention most view votes last ≤ Wire.maxMessageSize → m.InWords →
        ∀ (n : Network) (target : Nat), n.connects m.sender target = true →
          n.route m.sender target m =
            ({ n with delivered := n.delivered + 1 }, [⟨m.sender, target, m⟩])) ∧
      (c.InWords → (∀ w e, Env w e → e.InWords) → m.InWords) := by
  have hsize : m.size ≤ m.limit c.retention most view votes last := by
    cases m with
    | prepare m => exact Wire.size_prepare_le m
    | promise m =>
      have hreports : ∀ rep ∈ m.reports, (Wire.writeReport rep).length ≤ most := by
        intro rep hrep
        have hreport := length_writeReport_le hmost rep (h.honest.reported m hm rep hrep).1
        omega
      have hlength : m.reports.length ≤ votes := by
        obtain ⟨hle, hordinary⟩ := h.length_reports_le hlast hm
        rcases hvotes with hlt | ⟨henv, hlt⟩
        · omega
        · have hle' := hordinary henv
          omega
      have hmul := Nat.mul_le_mul_right most hlength
      have hle := Wire.size_promise_le m hreports
      have hview' := hview _ hm
      simp only [Message.viewSize, Message.limit] at hview' ⊢
      omega
    | accept m => exact hmost m hm
    | learn m =>
      have hreport := length_writeReport_le hmost ⟨m.slot, m.round, m.value⟩ (h.honest.cast m hm)
      have hle := Wire.size_learn_le m
      have hview' := hview _ hm
      simp only [Message.viewSize, Message.limit] at hview' ⊢
      omega
    | catchUpRequest m =>
      have hlength := h.length_ranges_le hlast hm
      have hle := Wire.size_catchUpRequest_le m
      simp only [Message.limit]
      omega
    | catchUpResponse m =>
      have hdecided : ∀ d ∈ m.decided,
          (Wire.writePair Wire.writeNat Wire.writeValue d).length ≤ most := by
        rintro ⟨slot, v⟩ hd
        obtain ⟨r, sender, epochs, hsaid⟩ := h.proposed_of_decided
          ((h.learner_recorded m.sender).answered m hm rfl slot v hd)
        have hpair := Wire.length_writePair_add_six_le ⟨sender, r, slot, v, epochs⟩
        have hle := hmost _ hsaid
        dsimp only at hpair
        omega
      have hmul := Nat.mul_le_mul_right most (h.length_decided_le hm)
      have hle := Wire.size_catchUpResponse_le m hdecided
      simp only [Message.limit]
      omega
  exact ⟨hsize, fun hlimit hwords n target hconnects =>
    Network.route_eq hwords (hsize.trans hlimit) hconnects, fun hc henv => h.inWords hc henv hm⟩

/-- A promise reports the value that another leader proposed; the network carries it. -/
theorem sendable_of_second_leader : ∃ w, Reachable {} (fun _ e => e.Ordinary ∧ e.InWords) w ∧
    ∃ m : Promise, Said w.sent (.promise m) ∧ m.reports = [⟨1, ⟨1, 0⟩, .appBatch [65]⟩] ∧
      (Message.promise m).size ≤ 102550 ∧ 102550 ≤ Wire.maxMessageSize ∧
      (Network.mk [0, 1, 2] [] 0 0).route 0 1 (.promise m) =
        (Network.mk [0, 1, 2] [] 1 0, [⟨0, 1, .promise m⟩]) := by
  let r : Round := ⟨1, 0⟩
  let r' : Round := ⟨1, 1⟩
  let e : EpochVector := .zeros 3
  let v := Value.appBatch [65]
  let m : Promise := ⟨0, r', [⟨1, r, v⟩], e⟩
  obtain ⟨w, hw, hm, hmost, hview, hlast⟩ := World.exists_reachable {} (fun _ e => e.Ordinary ∧ e.InWords)
    [.proposer 0 (.trust 0), .proposer 0 (.submit v), .acceptor 0 (.prepare ⟨0, r, 0⟩),
      .acceptor 1 (.prepare ⟨0, r, 0⟩), .proposer 0 (.promise ⟨0, r, [], e⟩),
      .proposer 0 (.promise ⟨1, r, [], e⟩), .acceptor 0 (.accept ⟨0, r, 1, v, e⟩),
      .proposer 1 (.trust 1), .acceptor 0 (.prepare ⟨1, r', 0⟩)]
    (fun w => Said w.sent (.promise m) ∧ (∀ o ∈ w.sent, o.message.size ≤ 100) ∧
      (∀ o ∈ w.sent, o.message.viewSize ≤ 4) ∧ ProposedUpTo 1 w.sent)
    (by decide +kernel)
  have hsize : ∀ m, Said w.sent (.accept m) → (Message.accept m).size ≤ 100 :=
    fun m ⟨o, ho, heq⟩ => heq ▸ hmost o ho
  have hviewSize : ∀ m, Said w.sent m → m.viewSize ≤ 4 := fun m ⟨o, ho, heq⟩ => heq ▸ hview o ho
  have hvotes : 1 < 1025 ∨ (∀ (_ : World) (e : Event), e.Ordinary ∧ e.InWords → e.Ordinary) ∧
      ({} : ReplicaSettings).retention < 1025 := Or.inr ⟨fun _ _ h => h.1, by decide⟩
  obtain ⟨hfits, hcarried, hwords⟩ := hw.sendable hsize hviewSize hlast hvotes hm
  exact ⟨w, hw, m, hm, rfl, hfits, by decide,
    hcarried (by decide) (hwords ⟨by decide, by decide⟩ fun _ _ h => h.2) _ 1 (by decide)⟩

/-! ### A promise that is not carried -/

/-- What is sent in a cluster of one replica that votes for two values, loses the trust of itself and
gains it again, and reports both votes with one promise. -/
def sentForTwo (v v' : Value) : List Outgoing :=
  [.broadcast (.prepare ⟨0, ⟨1, 0⟩, 0⟩), .unicast 0 (.promise ⟨0, ⟨1, 0⟩, [], .zeros 1⟩),
    .broadcast (.accept ⟨0, ⟨1, 0⟩, 1, v, .zeros 1⟩),
    .broadcast (.accept ⟨0, ⟨1, 0⟩, 2, v', .zeros 1⟩),
    .broadcast (.learn ⟨0, 1, ⟨1, 0⟩, v, .zeros 1⟩),
    .broadcast (.learn ⟨0, 2, ⟨1, 0⟩, v', .zeros 1⟩), .broadcast (.prepare ⟨0, ⟨2, 0⟩, 0⟩),
    .unicast 0 (.promise ⟨0, ⟨2, 0⟩, [⟨1, ⟨1, 0⟩, v⟩, ⟨2, ⟨1, 0⟩, v'⟩], .zeros 1⟩)]

theorem exists_sent_eq_sentForTwo (v v' : Value) :
    ∃ w, Reachable { replicas := 1 } (fun _ e => e.Ordinary) w ∧ w.sent = sentForTwo v v' := by
  -- the run, and what was sent before each message that arrives
  have hrun : ((World.start { replicas := 1 }).step (.proposer 0 (.trust 0)) >>= fun w₁ =>
      w₁.step (.acceptor 0 (.prepare ⟨0, ⟨1, 0⟩, 0⟩)) >>= fun w₂ =>
      w₂.step (.proposer 0 (.promise ⟨0, ⟨1, 0⟩, [], .zeros 1⟩)) >>= fun w₃ =>
      w₃.step (.proposer 0 (.submit v)) >>= fun w₄ =>
      w₄.step (.proposer 0 (.submit v')) >>= fun w₅ =>
      w₅.step (.acceptor 0 (.accept ⟨0, ⟨1, 0⟩, 1, v, .zeros 1⟩)) >>= fun w₆ =>
      w₆.step (.acceptor 0 (.accept ⟨0, ⟨1, 0⟩, 2, v', .zeros 1⟩)) >>= fun w₇ =>
      w₇.step (.proposer 0 (.trust 1)) >>= fun w₈ =>
      w₈.step (.proposer 0 (.trust 0)) >>= fun w₉ =>
      w₉.step (.acceptor 0 (.prepare ⟨0, ⟨2, 0⟩, 0⟩)) >>= fun w₁₀ =>
      .ok [w₁.sent, w₂.sent, w₅.sent, w₆.sent, w₉.sent, w₁₀.sent]) = .ok
        [(sentForTwo v v').take 1, (sentForTwo v v').take 2, (sentForTwo v v').take 4,
          (sentForTwo v v').take 5, (sentForTwo v v').take 7, sentForTwo v v'] := by
    cbv
  obtain ⟨w₁, h₁, hrun⟩ := Checked.bind_eq_ok_iff.mp hrun
  obtain ⟨w₂, h₂, hrun⟩ := Checked.bind_eq_ok_iff.mp hrun
  obtain ⟨w₃, h₃, hrun⟩ := Checked.bind_eq_ok_iff.mp hrun
  obtain ⟨w₄, h₄, hrun⟩ := Checked.bind_eq_ok_iff.mp hrun
  obtain ⟨w₅, h₅, hrun⟩ := Checked.bind_eq_ok_iff.mp hrun
  obtain ⟨w₆, h₆, hrun⟩ := Checked.bind_eq_ok_iff.mp hrun
  obtain ⟨w₇, h₇, hrun⟩ := Checked.bind_eq_ok_iff.mp hrun
  obtain ⟨w₈, h₈, hrun⟩ := Checked.bind_eq_ok_iff.mp hrun
  obtain ⟨w₉, h₉, hrun⟩ := Checked.bind_eq_ok_iff.mp hrun
  obtain ⟨w₁₀, h₁₀, hsent⟩ := Checked.bind_eq_ok_iff.mp hrun
  simp only [Except.ok.injEq, List.cons.injEq, and_true] at hsent
  obtain ⟨hs₁, hs₂, hs₅, hs₆, hs₉, hs₁₀⟩ := hsent
  have hone : 0 < 1 := Nat.one_pos
  have hnext : ∀ {w w' : World} {e : Event}, w.step e = .ok w' → e.Ordinary → w.Allowed 1 e →
      Reachable { replicas := 1 } (fun _ e => e.Ordinary) w →
        Reachable { replicas := 1 } (fun _ e => e.Ordinary) w' :=
    fun hstep hordinary hallowed hw => hw.step hordinary hallowed hstep
  have hw₁ := hnext h₁ trivial hone .start
  have hw₂ := hnext h₂ trivial ⟨hone, .broadcast _, by rw [hs₁]; exact .head _, rfl, trivial⟩ hw₁
  have hw₃ := hnext h₃ trivial
    ⟨hone, .unicast 0 _, by rw [hs₂]; exact .tail _ (.head _), rfl, rfl⟩ hw₂
  have hw₄ := hnext h₄ trivial hone hw₃
  have hw₅ := hnext h₅ trivial hone hw₄
  have hw₆ := hnext h₆ trivial
    ⟨hone, .broadcast _, by rw [hs₅]; exact .tail _ (.tail _ (.head _)), rfl, trivial⟩ hw₅
  have hw₇ := hnext h₇ trivial
    ⟨hone, .broadcast _, by rw [hs₆]; exact .tail _ (.tail _ (.tail _ (.head _))), rfl, trivial⟩ hw₆
  have hw₈ := hnext h₈ trivial hone hw₇
  have hw₉ := hnext h₉ trivial hone hw₈
  have hw₁₀ := hnext h₁₀ trivial
    ⟨hone, .broadcast _, by rw [hs₉]; simp [sentForTwo], rfl, trivial⟩ hw₉
  exact ⟨w₁₀, hw₁₀, hs₁₀⟩

/-- **A promise may be too large** for every network although all proposals are within the limit: it
reports two of them, and is dropped even where the network connects. -/
theorem promise_may_be_too_large :
    ReplicaSettings.validate { replicas := 1 } = .ok () ∧
      ∃ w, Reachable { replicas := 1 } (fun _ e => e.Ordinary) w ∧
        (∀ m, Said w.sent (.accept m) → (Message.accept m).size ≤ Wire.maxMessageSize) ∧
          ∃ m : Promise, Said w.sent (.promise m) ∧
            Wire.maxMessageSize < (Message.promise m).size ∧
              ∀ (n : Network) (target : Nat), n.route m.sender target (.promise m) =
                ({ n with dropped := n.dropped + 1 }, []) := by
  let v := Value.appBatch (List.replicate 6000000 0)
  obtain ⟨w, hw, hsent⟩ := exists_sent_eq_sentForTwo v v
  let m : Promise := ⟨0, ⟨2, 0⟩, [⟨1, ⟨1, 0⟩, v⟩, ⟨2, ⟨1, 0⟩, v⟩], .zeros 1⟩
  have hpayload : v.payload.length = 6000000 := List.length_replicate
  have hlarge : Wire.maxMessageSize < (Message.promise m).size := by
    have hsum := Wire.sum_payload_le_size_promise m
    have hreports : (m.reports.map fun rep => rep.value.payload.length).sum = 12000000 := by
      simp [m, hpayload]
    rw [hreports] at hsum
    exact Nat.lt_of_lt_of_le (by decide) hsum
  refine ⟨rfl, w, hw, fun m' hm' => ?_, m, ?_, hlarge, Network.route_of_lt hlarge⟩
  · -- each proposal carries one of the values, and little more
    have hepochs : (Wire.writeEpochs (.zeros 1)).length = 2 := rfl
    have hcarries : m'.value = v ∧ m'.epochs = .zeros 1 := by
      rw [hsent] at hm'
      simp only [Said, sentForTwo, List.mem_cons, List.not_mem_nil, or_false] at hm'
      obtain ⟨o, (rfl | rfl | rfl | rfl | rfl | rfl | rfl | rfl), heq⟩ := hm' <;> cases heq <;>
        exact ⟨rfl, rfl⟩
    have hle := Wire.size_accept_le m'
    rw [hcarries.1, hcarries.2, hpayload, hepochs] at hle
    rw [Wire.maxMessageSize]
    omega
  · rw [hsent]
    exact ⟨.unicast 0 (.promise m), by simp [sentForTwo, m], rfl⟩

end Reachable

end ReplicatedLog
