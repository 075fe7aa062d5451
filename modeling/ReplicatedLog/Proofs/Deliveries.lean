import ReplicatedLog.Proofs.Learners

/-!
# What proposers hear of deliveries

A proposer hears from the learner of its replica only, and later than it happens. In every reachable
world (`World.Told`) the slots that it takes for decided were delivered by that learner, and so was
everything that it is still to hear of. It asks for promises from the slots on that it takes for
decided, so these were delivered too.
-/

namespace ReplicatedLog

open Function

/-- What the proposer of replica `i` heard, or is to hear, was delivered. -/
structure World.Told (w : World) (i : Nat) : Prop where
  /-- The slots that it takes for decided were delivered. -/
  adu_le : (w.proposers i).adu ≤ (w.logs i).length
  /-- What it is to hear was delivered. -/
  waiting : ∀ h ∈ w.waiting i, h.adu ≤ (w.logs i).length ∧ ∀ d ∈ h.decided, d ∈ w.logs i
  /-- It asked about all slots after some that were delivered. -/
  asked_le : ∀ m, Said w.sent (.prepare m) → m.sender = i → m.slot ≤ (w.logs i).length

variable {c : ReplicaSettings} {Env : World → Event → Prop} {w w' : World} {i : Nat}

/-- Nothing is forgotten that was said. -/
theorem World.Steps.exists_sent {e : Event} (h : w.Steps e w') : ∃ out, w'.sent = w.sent ++ out := by
  cases h with
  | acceptor => exact ⟨_, rfl⟩
  | snapshot => exact ⟨[], (List.append_nil _).symm⟩
  | proposer => exact ⟨_, rfl⟩
  | nothing => exact ⟨[], (List.append_nil _).symm⟩
  | handOver => exact ⟨_, rfl⟩
  | learner => exact ⟨_, rfl⟩

namespace World.Told

/-- What the proposers of other replicas and the other roles say is no request of this proposer. -/
theorem asked_of_author_ne (h : w.Told i) {out : List Outgoing}
    (hout : ∀ o ∈ out, o.author ≠ (.proposer, i)) (m : Prepare)
    (hm : Said (w.sent ++ out) (.prepare m)) (hi : m.sender = i) :
    m.slot ≤ (w.logs i).length := by
  refine h.asked_le m (said_of_author_ne (fun o ho heq => hout o ho ?_) hm) hi
  exact heq.trans (congrArg (Role.proposer, ·) hi)

/-- What the proposer takes for decided after a step, and asks about, was delivered, if what it hears
of was. -/
theorem act (h : w.Told i) {p p' : Proposer} {x : Proposer.Input} {out : Proposer.Output}
    (hadu : p.adu = (w.proposers i).adu) (hlow : p.window.low = p.adu + 1)
    (hnote : ∀ adu decided, x = .noteDelivered adu decided → adu ≤ (w.logs i).length)
    (hact : p.act x = .ok (p', out)) :
    p'.adu ≤ (w.logs i).length ∧ ∀ m, Said (w.sent ++ out.outbound) (.prepare m) →
      m.sender = i → m.slot ≤ (w.logs i).length := by
  have hle : p.adu ≤ (w.logs i).length := hadu ▸ h.adu_le
  obtain ⟨hadu', hprepare⟩ := Proposer.adu_of_act hlow hact
  refine ⟨?_, fun m hm hi => ?_⟩
  · rcases hadu' with heq | ⟨decided, heq⟩
    · rwa [heq]
    · exact hnote _ decided heq
  · rcases said_append.mp hm with hm | hm
    · exact h.asked_le m hm hi
    · rw [(hprepare m hm).2]
      exact hle

/-- What the proposer is to hear after a step of the learner was delivered. -/
theorem learns (h : w.Told i) {l : Learner} {d : Delivery}
    (hnext : l.next = 1 + (w.logs i ++ d.delivered).length) :
    ∀ h ∈ w.waiting i ++ World.handOvers l d, h.adu ≤ (w.logs i ++ d.delivered).length ∧
      ∀ e ∈ h.decided, e ∈ w.logs i ++ d.delivered := by
  rw [List.length_append] at hnext ⊢
  intro note hmem
  rcases List.mem_append.mp hmem with hmem | hmem
  · obtain ⟨hle, hlogged⟩ := h.waiting note hmem
    exact ⟨by omega, fun e he => List.mem_append_left _ (hlogged e he)⟩
  · unfold World.handOvers at hmem
    split at hmem
    · exact (List.not_mem_nil hmem).elim
    · obtain rfl := List.mem_singleton.mp hmem
      exact ⟨by simp only [Learner.adu]; omega, fun e he => List.mem_append_right _ he⟩

end World.Told

/-- **Proposers hear of deliveries only.** -/
theorem Reachable.told (h : Reachable c Env w) (i : Nat) : w.Told i := by
  induction h generalizing i with
  | start =>
    exact ⟨Nat.le_refl 0, fun h hh => (List.not_mem_nil hh).elim,
      fun m hm => absurd hm not_said_nil⟩
  | @step w w' e hw henv hallowed hstep ih =>
    have hw' := hw.step henv hallowed hstep
    cases World.steps_of_step hstep with
    | @acceptor j x a out act =>
      have hauthor := (Acceptor.author_of_act act).2
      exact ⟨(ih i).adu_le, (ih i).waiting,
        (ih i).asked_of_author_ne (author_ne hauthor (by simp))⟩
    | snapshot => exact ⟨(ih i).adu_le, (ih i).waiting, (ih i).asked_le⟩
    | @proposer j x p out act =>
      obtain ⟨-, -, hid, hlow⟩ := hw.ids j
      have hauthor := (Proposer.author_of_act hlow act).2.2
      rw [hid] at hauthor
      by_cases hj : i = j
      · subst hj
        obtain ⟨hadu, hasked⟩ := (ih i).act rfl hlow
          (by rintro adu decided rfl; exact hallowed.elim) act
        refine ⟨?_, (ih i).waiting, hasked⟩
        simp only [update_self]
        exact hadu
      · refine ⟨?_, (ih i).waiting,
          (ih i).asked_of_author_ne (author_ne hauthor (by simp [Ne.symm hj]))⟩
        simp only [update_of_ne hj]
        exact (ih i).adu_le
    | nothing => exact ih i
    | @handOver j note rest p out waiting_eq act =>
      obtain ⟨-, -, hid, hlow⟩ := hw.ids j
      have hauthor := (Proposer.author_of_hear_act hlow act).2.2
      rw [hid] at hauthor
      by_cases hj : i = j
      · subst hj
        have hwaiting := (ih i).waiting
        rw [waiting_eq] at hwaiting
        obtain ⟨hadu, hasked⟩ := (ih i).act (p := (w.proposers i).hear note.round) rfl hlow
          (by rintro adu decided ⟨⟩; exact (hwaiting note List.mem_cons_self).1) act
        refine ⟨?_, fun h hh => ?_, hasked⟩
        · simp only [update_self]
          exact hadu
        · simp only [update_self] at hh
          exact hwaiting h (List.mem_cons_of_mem _ hh)
      · refine ⟨?_, ?_, (ih i).asked_of_author_ne (author_ne hauthor (by simp [Ne.symm hj]))⟩
        · simp only [update_of_ne hj]
          exact (ih i).adu_le
        · simp only [update_of_ne hj]
          exact (ih i).waiting
    | @learner j x l d act =>
      have hauthor := (Learner.author_of_act act).2
      have hasked := (ih i).asked_of_author_ne (author_ne hauthor (by simp))
      by_cases hj : i = j
      · subst hj
        have hnext := (hw'.learner_recorded i).next_eq
        simp only [update_self] at hnext
        have hle : (w.logs i).length ≤ (w.logs i ++ d.delivered).length := by simp
        refine ⟨?_, ?_, fun m hm hi => ?_⟩
        · simp only [update_self]
          exact (ih i).adu_le.trans hle
        · simp only [update_self]
          exact (ih i).learns hnext
        · simp only [update_self]
          exact (hasked m hm hi).trans hle
      · refine ⟨?_, ?_, ?_⟩
        · simp only [update_of_ne hj]
          exact (ih i).adu_le
        · simp only [update_of_ne hj]
          exact (ih i).waiting
        · simp only [update_of_ne hj]
          exact hasked

end ReplicatedLog
