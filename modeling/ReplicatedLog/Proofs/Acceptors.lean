import ReplicatedLog.Proofs.Ballots
import ReplicatedLog.Proofs.World

/-!
# What acceptors have said

In every reachable world the messages of an acceptor and its state fit together
(`Acceptor.Recorded`): its promises and votes are not above its round, it voted for proposals only,
the votes that it holds and reports are votes that it cast, and for each vote that it cast it holds
that vote or a later one, unless it has given up the slot.

What holds of one acceptor at any time holds of everything that acceptors have said
(`Reachable.acceptor_recorded`), as long as none of them takes over votes that others cast.
-/

namespace ReplicatedLog

namespace Acceptor

/-- The record of what the acceptor `i`, among `n`, has said fits its state. -/
structure Recorded (n : Nat) (sent : List Outgoing) (i : Nat) (a : Acceptor) : Prop where
  /-- It promised no round above its own. -/
  promised_le : ∀ m, Said sent (.promise m) → m.sender = i → i < n ∧ m.round ≤ a.round
  /-- It reported earlier votes of its own. -/
  reported : ∀ m, Said sent (.promise m) → m.sender = i → ∀ rep ∈ m.reports,
    rep.round < m.round ∧ rep.round.isBottom = false ∧ Voted sent i rep.round rep.slot rep.value
  /-- It voted for proposals, in no round above its own. -/
  voted_le : ∀ r slot v, Voted sent i r slot v → i < n ∧ r ≤ a.round ∧ Proposed sent r slot v
  /-- It cast the votes that it holds. -/
  held : ∀ slot rep, a.voteFor slot = some rep → Voted sent i rep.round slot rep.value
  /-- It holds the votes that it cast, or later ones, from its low mark on. -/
  kept : ∀ r slot v, Voted sent i r slot v →
    slot < a.window.low ∨ ∃ rep, a.voteFor slot = some rep ∧ r ≤ rep.round

variable {n i : Nat} {sent out : List Outgoing} {a a' : Acceptor}

theorem recorded_start (n i : Nat) {a : Acceptor} (h : a.window = {}) : Recorded n [] i a where
  promised_le m hm := absurd hm not_said_nil
  reported m hm := absurd hm not_said_nil
  voted_le r slot v hv := hv.elim fun _ h => absurd h not_said_nil
  held slot rep hrep := by
    rw [voteFor, h, Window.get?_empty] at hrep
    cases hrep
  kept r slot v hv := hv.elim fun _ h => absurd h not_said_nil

theorem voted_of_author_ne {r : Round} {slot : Nat} {v : Value}
    (hout : ∀ o ∈ out, o.author ≠ (.acceptor, i)) (h : Voted (sent ++ out) i r slot v) :
    Voted sent i r slot v :=
  h.imp fun _ h => said_of_author_ne hout h

theorem promise_of_author_ne {m : Promise} (hout : ∀ o ∈ out, o.author ≠ (.acceptor, i))
    (hi : m.sender = i) (h : Said (sent ++ out) (.promise m)) : Said sent (.promise m) :=
  said_of_author_ne (fun o ho heq => hout o ho (heq.trans (congrArg (Role.acceptor, ·) hi))) h

theorem Recorded.append (h : Recorded n sent i a) (hout : ∀ o ∈ out, o.author ≠ (.acceptor, i)) :
    Recorded n (sent ++ out) i a where
  promised_le m hm hi := h.promised_le m (promise_of_author_ne hout hi hm) hi
  reported m hm hi rep hrep := by
    obtain ⟨hlt, hbottom, hvoted⟩ := h.reported m (promise_of_author_ne hout hi hm) hi rep hrep
    exact ⟨hlt, hbottom, hvoted.append out⟩
  voted_le r slot v hv := by
    obtain ⟨hn, hle, hproposed⟩ := h.voted_le r slot v (voted_of_author_ne hout hv)
    exact ⟨hn, hle, hproposed.append out⟩
  held slot rep hrep := (h.held slot rep hrep).append out
  kept r slot v hv := h.kept r slot v (voted_of_author_ne hout hv)

/-- Giving up votes does not disturb the record, nor does a higher round. -/
theorem Recorded.keeps (h : Recorded n sent i a) {mark : Nat} (hround : a.round ≤ a'.round)
    (hkeeps : Keeps mark a a') : Recorded n sent i a' where
  promised_le m hm hi := (h.promised_le m hm hi).imp_right (·.trans hround)
  reported := h.reported
  voted_le r slot v hv := by
    obtain ⟨hn, hle, hproposed⟩ := h.voted_le r slot v hv
    exact ⟨hn, hle.trans hround, hproposed⟩
  held slot rep hrep := by
    rw [hkeeps.voteFor_eq] at hrep
    split at hrep
    · cases hrep
    · exact h.held slot rep hrep
  kept r slot v hv := by
    rw [hkeeps.voteFor_eq]
    split
    · exact Or.inl (by assumption)
    · exact (h.kept r slot v hv).imp_left fun hlow => hlow.trans_le hkeeps.low_le

/-- A promise adds a report of votes that the acceptor holds. -/
theorem Recorded.promise (h : Recorded n sent i a) {m : Prepare} {reports : List Report}
    {mark : Nat} (hn : i < n) (above : a.round < m.round) (round_eq : a'.round = m.round)
    (keeps : Keeps mark a a') (mem_reports : ∀ r : Report, r ∈ reports ↔
      m.slot ≤ r.slot ∧ a'.voteFor r.slot = some r ∧ r.round.isBottom = false) :
    Recorded n
      (sent ++ [.unicast m.sender (.promise ⟨a.id, m.round, reports, a.epochs⟩)]) i a' := by
  have hkept := h.keeps (round_eq ▸ above.le) keeps
  have hvoted : ∀ {r slot v}, Voted (sent ++ [.unicast m.sender
      (.promise ⟨a.id, m.round, reports, a.epochs⟩)]) i r slot v → Voted sent i r slot v := by
    rintro r slot v ⟨epochs, hsaid⟩
    exact ⟨epochs, (said_append.mp hsaid).resolve_right (by simp [Outgoing.message])⟩
  refine ⟨fun m' hm' hi => ?_, fun m' hm' hi rep hrep => ?_, fun r slot v hv => ?_,
    fun slot rep hrep => (hkept.held slot rep hrep).append _,
    fun r slot v hv => hkept.kept r slot v (hvoted hv)⟩
  · rcases said_append.mp hm' with hm' | hm'
    · exact hkept.promised_le m' hm' hi
    · rw [said_singleton, Outgoing.message, Message.promise.injEq] at hm'
      subst hm'
      exact ⟨hn, round_eq.ge⟩
  · rcases said_append.mp hm' with hm' | hm'
    · obtain ⟨hlt, hbottom, hv⟩ := hkept.reported m' hm' hi rep hrep
      exact ⟨hlt, hbottom, hv.append _⟩
    · rw [said_singleton, Outgoing.message, Message.promise.injEq] at hm'
      subst hm'
      obtain ⟨-, hvote, hbottom⟩ := (mem_reports rep).mp hrep
      rw [keeps.voteFor_eq] at hvote
      split at hvote
      · cases hvote
      · have hv := h.held rep.slot rep hvote
        exact ⟨(h.voted_le _ _ _ hv).2.1.trans_lt above, hbottom, hv.append _⟩
  · obtain ⟨hn, hle, hproposed⟩ := hkept.voted_le r slot v (hvoted hv)
    exact ⟨hn, hle, hproposed.append _⟩

/-- A vote for a proposal is held from then on. -/
theorem Recorded.vote (h : Recorded n sent i a) {m : Accept} (hn : i < n) (hid : a.id = i)
    (hproposed : Proposed sent m.round m.slot m.value) (not_below : a.round ≤ m.round)
    (round_eq : a'.round = m.round) (low_le : a.window.low ≤ a'.window.low)
    (voteFor_eq : ∀ t, a'.voteFor t = if t = m.slot then some ⟨m.slot, m.round, m.value⟩
      else if t < a'.window.low then none else a.voteFor t) :
    Recorded n (sent ++ [.broadcast (.learn ⟨a.id, m.slot, m.round, m.value, a.epochs⟩)]) i a' := by
  set out := [Outgoing.broadcast (.learn ⟨a.id, m.slot, m.round, m.value, a.epochs⟩)] with hout
  have hle : a.round ≤ a'.round := round_eq ▸ not_below
  have hpromise : ∀ {m'}, Said (sent ++ out) (.promise m') → Said sent (.promise m') := fun hm' =>
    (said_append.mp hm').resolve_right (by simp [hout, Outgoing.message])
  have hvoted : ∀ {r slot v}, Voted (sent ++ out) i r slot v →
      Voted sent i r slot v ∨ r = m.round ∧ slot = m.slot ∧ v = m.value := by
    rintro r slot v ⟨epochs, hsaid⟩
    rcases said_append.mp hsaid with hsaid | hsaid
    · exact Or.inl ⟨epochs, hsaid⟩
    · rw [hout, said_singleton, Outgoing.message, Message.learn.injEq, Learn.mk.injEq] at hsaid
      obtain ⟨-, rfl, rfl, rfl, -⟩ := hsaid
      exact Or.inr ⟨rfl, rfl, rfl⟩
  refine ⟨fun m' hm' hi => (h.promised_le m' (hpromise hm') hi).imp_right (·.trans hle),
    fun m' hm' hi rep hrep => ?_, fun r slot v hv => ?_, fun slot rep hrep => ?_,
    fun r slot v hv => ?_⟩
  · obtain ⟨hlt, hbottom, hv⟩ := h.reported m' (hpromise hm') hi rep hrep
    exact ⟨hlt, hbottom, hv.append out⟩
  · rcases hvoted hv with hv | ⟨rfl, rfl, rfl⟩
    · obtain ⟨hn, hle', hproposed'⟩ := h.voted_le r slot v hv
      exact ⟨hn, hle'.trans hle, hproposed'.append out⟩
    · exact ⟨hn, round_eq.ge, hproposed.append out⟩
  · rw [voteFor_eq] at hrep
    split at hrep
    · rename_i hslot
      cases hrep
      subst hslot hid
      exact ⟨a.epochs, said_append.mpr (Or.inr (said_singleton.mpr rfl))⟩
    split at hrep
    · cases hrep
    · exact (h.held slot rep hrep).append out
  · rw [voteFor_eq]
    by_cases hslot : slot = m.slot
    · rw [if_pos hslot]
      refine Or.inr ⟨_, rfl, ?_⟩
      rcases hvoted hv with hv | ⟨rfl, -, -⟩
      · exact (h.voted_le r slot v hv).2.1.trans not_below
      · exact le_rfl
    · rw [if_neg hslot]
      rcases hvoted hv with hv | ⟨-, heq, -⟩
      · split
        · exact Or.inl (by assumption)
        · exact (h.kept r slot v hv).imp_left fun hlow => hlow.trans_le low_le
      · exact absurd heq hslot

end Acceptor

/-- In every world that ordinary events lead to, what the acceptors have said fits their states. -/
theorem Reachable.acceptor_recorded {c : ReplicaSettings} {Env : World → Event → Prop}
    (hordinary : ∀ w e, Env w e → e.Ordinary) {w : World} (h : Reachable c Env w) (i : Nat) :
    (w.acceptors i).Recorded c.replicas w.sent i := by
  refine h.acceptors (P := fun i a sent => a.Recorded c.replicas sent i)
    (fun i => Acceptor.recorded_start _ _ rfl) (fun i a sent out hout h => h.append hout) ?_ i
  intro w i x a out hw henv hallowed hrec hact
  have htake : ∀ s, x ≠ .takeOver s := by
    rintro s rfl
    exact hordinary w _ henv
  cases Acceptor.acts_of_act htake hact with
  | quiet round_eq keeps => exact (hrec.keeps round_eq.ge keeps).append (by simp)
  | promise above round_eq keeps mem_reports =>
    exact hrec.promise hallowed.1 above round_eq keeps mem_reports
  | @vote m _ not_below round_eq id_eq _ low_le _ _ voteFor_eq =>
    exact hrec.vote hallowed.1 (hw.ids i).1 ⟨m.sender, m.epochs, World.said_of_arrives hallowed.2⟩
      not_below round_eq low_le voteFor_eq

end ReplicatedLog
