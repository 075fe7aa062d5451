import ReplicatedLog.Proofs.Learners
import ReplicatedLog.Proofs.Proposers

/-!
# Choices

What acceptors and proposers have said in a reachable world is a sound record of ballots for a slot
(`Reachable.ballots`). Its promises hide no vote of a round (`Reachable.shown`) if the acceptors that
cast such a vote still hold one whenever they promise (`World.Shows`). For a promise reports the votes
that the acceptor still holds. So a vote is hidden only from a leader that asks for slots from below
the acceptor's low mark on: the promise does not tell that they were given up.
-/

namespace ReplicatedLog

/-- If an acceptor that voted for `slot` in round `r` promises a later round to a leader that asks
about the slot, it has not given the slot up. -/
def World.Shows (r : Round) (slot : Nat) (w : World) : Event → Prop
  | .acceptor i (.prepare m) => (w.acceptors i).round < m.round → m.slot < slot →
      (∃ v, Voted w.sent i r slot v) → (w.acceptors i).window.low ≤ slot
  | _ => True

instance (sent : List Outgoing) (i : Nat) (r : Round) (slot : Nat) :
    Decidable (∃ v, Voted sent i r slot v) :=
  decidable_of_iff (∃ m ∈ select Message.learn? sent, m.sender = i ∧ m.slot = slot ∧ m.round = r) <| by
    constructor
    · rintro ⟨⟨_, _, _, v, epochs⟩, hm, rfl, rfl, rfl⟩
      obtain ⟨m, hsaid, hlearn⟩ := mem_select.mp hm
      exact ⟨v, epochs, Message.learn?_eq_some.mp hlearn ▸ hsaid⟩
    · rintro ⟨v, epochs, hsaid⟩
      exact ⟨_, mem_select.mpr ⟨_, hsaid, rfl⟩, rfl, rfl, rfl⟩

instance (r : Round) (slot : Nat) (w : World) : (e : Event) → Decidable (w.Shows r slot e)
  | .acceptor i (.prepare m) =>
    inferInstanceAs (Decidable ((w.acceptors i).round < m.round → m.slot < slot →
      (∃ v, Voted w.sent i r slot v) → (w.acceptors i).window.low ≤ slot))
  | .acceptor _ (.accept _) | .acceptor _ (.setEpochs _) | .acceptor _ (.takeOver _)
  | .acceptor _ (.raiseLow _) | .snapshot _ _ | .proposer _ _ | .handOver _ | .learner _ _ =>
    inferInstanceAs (Decidable True)

variable {c : ReplicaSettings} {Env : World → Event → Prop} {w : World} {r : Round} {slot : Nat}

namespace Reachable

/-- A proposal is made in a round of its sender, which is a real one. -/
theorem proposed_owner (hordinary : ∀ w e, Env w e → e.Ordinary) (h : Reachable c Env w)
    {m : Accept} (hm : Said w.sent (.accept m)) :
    m.round.owner = m.sender ∧ m.round.isBottom = false ∧
      Backed c.quorum w.sent m.round m.slot m.value := by
  obtain ⟨-, howner, hbottom, hbacked⟩ :=
    (h.proposer_recorded hordinary m.sender).proposed m hm rfl
  exact ⟨howner, hbottom, hbacked⟩

/-- Promises hide no votes of a round, if none did when it was made. -/
theorem shown (hordinary : ∀ w e, Env w e → e.Ordinary)
    (hshows : ∀ w e, Env w e → w.Shows r slot e) (h : Reachable c Env w) :
    Ballot.Shown w.sent r slot := by
  intro m hm
  refine h.acceptors (P := fun i _ sent => ∀ m, Said sent (.promise m) → m.sender = i →
    ∃ first, Asked sent m.round first ∧ (first < slot → ∀ v, Voted sent i r slot v →
      r < m.round → ∃ rep ∈ m.reports, rep.slot = slot ∧ r ≤ rep.round))
    (fun i m hm => absurd hm not_said_nil) ?_ ?_ m.sender m hm rfl
  · intro i a sent out hout ih m hm hi
    obtain ⟨first, hasked, hshown⟩ := ih m (Acceptor.promise_of_author_ne hout hi hm) hi
    exact ⟨first, hasked.append out, fun hfirst v hv =>
      hshown hfirst v (Acceptor.voted_of_author_ne hout hv)⟩
  · intro w i x a out hw henv hallowed ih hact m hm hi
    have htake : ∀ s, x ≠ .takeOver s := by
      rintro s rfl
      exact hordinary w _ henv
    have hrec := hw.acceptor_recorded hordinary i
    cases Acceptor.acts_of_act htake hact with
    | quiet =>
      rw [List.append_nil] at hm ⊢
      exact ih m hm hi
    | @promise m' _ reports above round_eq keeps mem_reports =>
      have hvoted : ∀ {v}, Voted (w.sent ++ [.unicast m'.sender (.promise
          ⟨(w.acceptors i).id, m'.round, reports, (w.acceptors i).epochs⟩)]) i r slot v →
            Voted w.sent i r slot v := by
        rintro v ⟨epochs, hsaid⟩
        exact ⟨epochs, (said_append.mp hsaid).resolve_right (by simp [Outgoing.message])⟩
      rcases said_append.mp hm with hm | hm
      · obtain ⟨first, hasked, hshown⟩ := ih m hm hi
        exact ⟨first, hasked.append _, fun hfirst v hv => hshown hfirst v (hvoted hv)⟩
      · rw [said_singleton, Outgoing.message, Message.promise.injEq] at hm
        subst hm
        refine ⟨m'.slot, Asked.append ⟨m'.sender, World.said_of_arrives hallowed.2⟩ _, ?_⟩
        intro hfirst v hv hlt
        -- what was voted for is still held, so it is reported
        have hlow := hshows w _ henv above hfirst ⟨v, hvoted hv⟩
        have hheld : ¬ slot < a.window.low := by
          have := keeps.le_max
          omega
        rcases hrec.kept r slot v (hvoted hv) with hgone | ⟨rep, hrep, hle⟩
        · omega
        have hslot := Acceptor.slot_of_voteFor hrep
        refine ⟨rep, (mem_reports rep).mpr ⟨by omega, ?_, ?_⟩, hslot, hle⟩
        · rw [hslot, keeps.voteFor_eq, if_neg hheld, hrep]
        · obtain ⟨-, -, sender, epochs, hsaid⟩ := hrec.voted_le _ _ _ (hrec.held slot rep hrep)
          exact (hw.proposed_owner hordinary hsaid).2.1
    | @vote m' _ not_below =>
      have hpromise : Said w.sent (.promise m) :=
        (said_append.mp hm).resolve_right (by simp [Outgoing.message])
      obtain ⟨first, hasked, hshown⟩ := ih m hpromise hi
      refine ⟨first, hasked.append _, fun hfirst v hv hlt => ?_⟩
      obtain ⟨epochs, hsaid⟩ := hv
      rcases said_append.mp hsaid with hsaid | hsaid
      · exact hshown hfirst v ⟨epochs, hsaid⟩ hlt
      · -- it votes in no round below the one that it promised
        rw [said_singleton, Outgoing.message, Message.learn.injEq, Learn.mk.injEq] at hsaid
        obtain ⟨-, -, rfl, -⟩ := hsaid
        exact absurd (hlt.trans_le (hrec.promised_le m hpromise hi).2) not_below.not_gt

/-- **The record of a reachable world is sound** for every slot. -/
theorem ballots (hordinary : ∀ w e, Env w e → e.Ordinary) (h : Reachable c Env w) (slot : Nat) :
    Ballot.Sound c.replicas c.quorum w.sent slot where
  unique r v v' := by
    rintro ⟨sender, epochs, hm⟩ ⟨sender', epochs', hm'⟩
    have hsender : sender' = sender :=
      (h.proposed_owner hordinary hm').1.symm.trans (h.proposed_owner hordinary hm).1
    exact (h.proposer_recorded hordinary sender).unique _ _ hm rfl hm' hsender rfl rfl
  backed r v := by
    rintro ⟨sender, epochs, hm⟩
    exact (h.proposed_owner hordinary hm).2.2
  asked_below r v first := by
    rintro ⟨sender, epochs, hm⟩ ⟨sender', hm'⟩
    have hsender : sender' = sender :=
      ((h.proposer_recorded hordinary sender').asked _ hm' rfl).2.1.symm.trans
        (h.proposed_owner hordinary hm).1
    exact (h.proposer_recorded hordinary sender).asked_below _ _ hm' hsender hm rfl rfl
  proposed_of_voted i r v hv := by
    obtain ⟨hn, -, hproposed⟩ := (h.acceptor_recorded hordinary i).voted_le r slot v hv
    exact ⟨hn, hproposed⟩
  reported m hm := by
    have hrec := h.acceptor_recorded hordinary m.sender
    refine ⟨(hrec.promised_le m hm rfl).1, fun rep hrep => ?_⟩
    obtain ⟨hlt, -, hv⟩ := hrec.reported m hm rfl rep hrep
    exact ⟨hlt, hv⟩

end Reachable

/-- Two quorums have more members than there are replicas. -/
theorem ReplicaSettings.lt_quorum_add_quorum (c : ReplicaSettings) :
    c.replicas < c.quorum + c.quorum := by
  unfold quorum
  omega

end ReplicatedLog
