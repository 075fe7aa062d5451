import ReplicatedLog.Proofs.Learners

/-!
# Votes are for proposals

Whatever happens in a world, the value of every vote was proposed for its slot in its round: of votes
that are cast, held, reported with promises, and handed over between acceptors. Unlike the record of a single
acceptor this survives a change of the membership, in which acceptors take over votes of others and
give up slots at any time.
-/

namespace ReplicatedLog

open Function

namespace World

/-- The votes of a world are for proposals. -/
structure Honest (w : World) : Prop where
  /-- Those that are held. -/
  held : ∀ i slot rep, (w.acceptors i).voteFor slot = some rep →
    Proposed w.sent rep.round slot rep.value
  /-- Those that were handed over. -/
  handed : ∀ s ∈ w.snapshots, ∀ rep ∈ s.votes, Proposed w.sent rep.round rep.slot rep.value
  /-- Those that were reported. Their rounds are real ones. -/
  reported : ∀ m, Said w.sent (.promise m) → ∀ rep ∈ m.reports,
    Proposed w.sent rep.round rep.slot rep.value ∧ rep.round.isBottom = false
  /-- Those that were cast. -/
  cast : ∀ m, Said w.sent (.learn m) → Proposed w.sent m.round m.slot m.value

variable {w : World} {out : List Outgoing}

/-- What a proposer or a learner says is no vote. -/
theorem Honest.append (h : w.Honest) {r : Role} {j : Nat} (hr : r ≠ .acceptor)
    (hout : ∀ o ∈ out, o.author = (r, j)) : Honest { w with sent := w.sent ++ out } := by
  have hothers : ∀ m : Message, m.author.1 = .acceptor → Said (w.sent ++ out) m →
      Said w.sent m := by
    intro m hm hsaid
    refine said_of_author_ne (fun o ho heq => hr ?_) hsaid
    rw [← hm, ← heq, hout o ho]
  exact {
    held := fun i slot rep hrep => (h.held i slot rep hrep).append out
    handed := fun s hs rep hrep => (h.handed s hs rep hrep).append out
    reported := fun m hm rep hrep =>
      (h.reported m (hothers _ rfl hm) rep hrep).imp_left (·.append out)
    cast := fun m hm => (h.cast m (hothers _ rfl hm)).append out }

/-- The step of an acceptor keeps votes honest. -/
theorem Honest.acceptor (h : w.Honest) {i : Nat} {x : Acceptor.Input} {a : Acceptor}
    (hproposed : ∀ m, x = .accept m → Proposed w.sent m.round m.slot m.value)
    (hhanded : ∀ s, x = .takeOver s → s ∈ w.snapshots)
    (hact : (w.acceptors i).act x = .ok (a, out)) :
    (∀ slot rep, a.voteFor slot = some rep → Proposed w.sent rep.round slot rep.value) ∧
      (∀ m, Said out (.promise m) → ∀ rep ∈ m.reports,
        Proposed w.sent rep.round rep.slot rep.value ∧ rep.round.isBottom = false) ∧
      ∀ m, Said out (.learn m) → Proposed w.sent m.round m.slot m.value := by
  by_cases hx : ∀ s, x ≠ .takeOver s
  · cases Acceptor.acts_of_act hx hact with
    | quiet _ keeps =>
      refine ⟨fun slot rep hrep => ?_, fun m hm => absurd hm not_said_nil,
        fun m hm => absurd hm not_said_nil⟩
      rw [keeps.voteFor_eq] at hrep
      split at hrep
      · cases hrep
      · exact h.held i slot rep hrep
    | promise _ _ keeps mem_reports =>
      have hheld : ∀ slot rep, a.voteFor slot = some rep →
          Proposed w.sent rep.round slot rep.value := by
        intro slot rep hrep
        rw [keeps.voteFor_eq] at hrep
        split at hrep
        · cases hrep
        · exact h.held i slot rep hrep
      refine ⟨hheld, fun m hm rep hrep => ?_, fun m hm => ?_⟩
      · rw [said_singleton, Outgoing.message, Message.promise.injEq] at hm
        subst hm
        obtain ⟨-, hvote, hbottom⟩ := (mem_reports rep).mp hrep
        exact ⟨hheld _ _ hvote, hbottom⟩
      · rw [said_singleton, Outgoing.message] at hm
        cases hm
    | @vote m _ _ _ _ _ _ _ _ voteFor_eq =>
      refine ⟨fun slot rep hrep => ?_, fun m' hm' => ?_, fun m' hm' => ?_⟩
      · rw [voteFor_eq] at hrep
        split at hrep
        · rename_i hslot
          cases hrep
          exact hslot ▸ hproposed m rfl
        split at hrep
        · cases hrep
        · exact h.held i slot rep hrep
      · rw [said_singleton, Outgoing.message] at hm'
        cases hm'
      · rw [said_singleton, Outgoing.message, Message.learn.injEq] at hm'
        subst hm'
        exact hproposed m rfl
  · obtain ⟨s, rfl⟩ : ∃ s, x = .takeOver s := by simpa using hx
    obtain ⟨rfl, rfl⟩ := Prod.mk.inj (Except.ok.inj hact)
    refine ⟨fun slot rep hrep => ?_, fun m hm => absurd hm not_said_nil,
      fun m hm => absurd hm not_said_nil⟩
    rcases Acceptor.voteFor_takeOver hrep with hold | hr
    · exact h.held i slot rep hold
    · exact Acceptor.slot_of_voteFor hrep ▸ h.handed s (hhanded s rfl) rep hr

/-- Only proposers propose. -/
theorem not_accept_of_author {r : Role} {j : Nat} {out : List Outgoing} (hr : r ≠ .proposer)
    (hout : ∀ o ∈ out, o.author = (r, j)) (m : Accept) : ¬ Said out (.accept m) := by
  rintro ⟨o, ho, heq⟩
  have hauthor := hout o ho
  rw [Outgoing.author, heq] at hauthor
  exact hr (congrArg Prod.fst hauthor).symm

end World

/-- **Votes are for proposals**, in every reachable world. -/
theorem Reachable.honest {c : ReplicaSettings} {Env : World → Event → Prop} {w : World}
    (h : Reachable c Env w) : w.Honest := by
  induction h with
  | start =>
    refine ⟨fun i slot rep hrep => ?_, fun s hs => (List.not_mem_nil hs).elim,
      fun m hm => absurd hm not_said_nil, fun m hm => absurd hm not_said_nil⟩
    have hblank : ((World.start c).acceptors i).voteFor slot = none := by
      show (({} : Window Vote).get? slot).bind _ = none
      rw [Window.get?_empty]
      rfl
    rw [hblank] at hrep
    cases hrep
  | @step w w' e hw _ hallowed hstep ih =>
    cases World.steps_of_step hstep with
    | @acceptor i x a out act =>
      obtain ⟨hheld, hreported, hcast⟩ := ih.acceptor
        (by rintro m rfl; exact ⟨m.sender, m.epochs, World.said_of_arrives hallowed.2⟩)
        (by rintro s rfl; exact hallowed.2) act
      refine ⟨fun j slot rep hrep => ?_, fun s hs rep hrep => (ih.handed s hs rep hrep).append out,
        fun m hm rep hrep => ?_, fun m hm => ?_⟩
      · by_cases hj : j = i
        · subst hj
          simp only [update_self] at hrep
          exact (hheld slot rep hrep).append out
        · simp only [update_of_ne hj] at hrep
          exact (ih.held j slot rep hrep).append out
      · rcases said_append.mp hm with hm | hm
        · exact (ih.reported m hm rep hrep).imp_left (·.append out)
        · exact (hreported m hm rep hrep).imp_left (·.append out)
      · rcases said_append.mp hm with hm | hm
        · exact (ih.cast m hm).append out
        · exact (hcast m hm).append out
    | @snapshot i slot s votes =>
      refine ⟨ih.held, fun s' hs' rep hrep => ?_, ih.reported, ih.cast⟩
      rcases List.mem_append.mp hs' with hs' | hs'
      · exact ih.handed s' hs' rep hrep
      · obtain rfl := List.mem_singleton.mp hs'
        exact ih.held i rep.slot rep (Acceptor.voteFor_of_votesAbove votes hrep)
    | @proposer i x p out act =>
      obtain ⟨hheld, hhanded, hreported, hcast⟩ := ih.append (by simp)
        (Proposer.author_of_act (hw.ids i).2.2.2 act).2.2
      exact ⟨hheld, hhanded, hreported, hcast⟩
    | nothing => exact ih
    | @handOver i note rest p out waiting_eq act =>
      obtain ⟨hheld, hhanded, hreported, hcast⟩ := ih.append (by simp)
        (Proposer.author_of_hear_act (hw.ids i).2.2.2 act).2.2
      exact ⟨hheld, hhanded, hreported, hcast⟩
    | @learner i x l d act =>
      obtain ⟨hheld, hhanded, hreported, hcast⟩ := ih.append (by simp)
        (Learner.author_of_act act).2
      exact ⟨hheld, hhanded, hreported, hcast⟩

/-- What was chosen was proposed, whatever happens. -/
theorem Reachable.proposed_of_decided {c : ReplicaSettings} {Env : World → Event → Prop} {w : World}
    (h : Reachable c Env w) {slot : Nat} {v : Value} (hdecided : Decided c.quorum w.sent slot v) :
    ∃ r, Proposed w.sent r slot v := by
  obtain ⟨r, Q, -, hlength, hvoted⟩ := hdecided
  obtain ⟨j, hj⟩ := List.exists_mem_of_length_pos
    ((Nat.succ_pos _ : 0 < c.quorum).trans_le hlength)
  obtain ⟨epochs, hsaid⟩ := hvoted j hj
  exact ⟨r, h.honest.cast _ hsaid⟩

/-- What is delivered was proposed. -/
theorem Reachable.proposed_of_mem_logs {c : ReplicaSettings} {Env : World → Event → Prop} {w : World}
    (h : Reachable c Env w) {i slot : Nat} {v : Value} (hmem : (slot, v) ∈ w.logs i) :
    ∃ r, Proposed w.sent r slot v :=
  h.proposed_of_decided ((h.learner_recorded i).logged slot v hmem)

end ReplicatedLog
