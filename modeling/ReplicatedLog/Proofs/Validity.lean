import ReplicatedLog.Proofs.Votes

/-!
# Validity

Nothing is made up: what a learner delivers is a no-op, or a value that some replica took from a
client before (`Reachable.validity`). This holds in every run, whoever leads, whatever is lost,
doubled, given up, handed over or caught up with.

A value is on its way in many places: in the queue of a proposer, in its slots, in proposals, in
votes, in the reports of promises, in the votes that one acceptor hands to another, in the answers
of learners. Votes and deliveries are for proposals, wherever they are kept (`Reachable.honest`,
`Reachable.proposed_of_mem_logs`), so it is enough to follow values through a proposer
(`Proposer.Sourced`): it gets them from clients and from reported votes, and makes up no-ops only.
-/

namespace ReplicatedLog

open Function

/-! ### Values of a proposer -/

namespace Proposer

/-- All values that the proposer has, and those that the promises it keeps report, satisfy `P`. -/
structure Sourced (P : Value → Prop) (p : Proposer) : Prop where
  /-- Those that wait. -/
  queue : ∀ v ∈ p.queue, P v
  /-- Those that have slots. -/
  slots : ∀ t v, p.valueAt t = some v → P v
  /-- Those that are reported. -/
  reports : ∀ rep ∈ p.reports, P rep.value

variable {P Q : Value → Prop} {p p' : Proposer} {out : List Outgoing}

theorem Sourced.mono (h : Sourced P p) (hPQ : ∀ v, P v → Q v) : Sourced Q p where
  queue v hv := hPQ v (h.queue v hv)
  slots t v hv := hPQ v (h.slots t v hv)
  reports rep hrep := hPQ rep.value (h.reports rep hrep)

theorem sourced_start (hqueue : p.queue = []) (hwindow : p.window = {})
    (hpromises : p.promises = []) : Sourced P p where
  queue v hv := by simp [hqueue] at hv
  slots t v hv := by simp [valueAt, valueIn, hwindow] at hv
  reports rep hrep := by simp [Proposer.reports, hpromises] at hrep

/-- Values stay where they are, or are forgotten. -/
theorem Sourced.congr (h : Sourced P p) (hqueue : p'.queue = p.queue)
    (hvalue : ∀ t, p'.valueAt t = p.valueAt t)
    (hpromises : p'.promises = [] ∨ p'.promises = p.promises) : Sourced P p' where
  queue := hqueue ▸ h.queue
  slots t v hv := h.slots t v ((hvalue t).symm.trans hv)
  reports rep hrep := by
    rcases hpromises with hnil | heq
    · simp [Proposer.reports, hnil] at hrep
    · rw [Proposer.reports, heq] at hrep
      exact h.reports rep hrep

/-- A report changes nothing, or gives its value to a slot. -/
theorem valueIn_seed_cases (adu : Nat) (w : Window Proposal) (r : Report) (t : Nat) :
    valueIn (seed adu w r) t = valueIn w t ∨ valueIn (seed adu w r) t = some r.value := by
  unfold seed
  split
  · exact Or.inl rfl
  · rw [valueIn_modify]
    split
    · split
      · exact Or.inr rfl
      · exact Or.inl (value_getD w t)
    · exact Or.inl rfl

/-- The values after the reported votes were taken over are old ones or reported ones. -/
theorem Sourced.seeded (h : Sourced P p) {t : Nat} {v : Value} (hv : valueIn p.seeded t = some v) :
    P v := by
  suffices hall : ∀ v, valueIn p.seeded t = some v → P v from hall v hv
  unfold Proposer.seeded
  refine List.foldlRecOn (motive := fun w => ∀ v, valueIn w t = some v → P v) _ _ (h.slots t) ?_
  intro w hw r hr v hv
  rcases valueIn_seed_cases p.adu w r t with heq | heq
  · exact hw v (heq.symm.trans hv)
  · obtain rfl := Option.some.inj (heq.symm.trans hv)
    exact h.reports r hr

/-- A run of proposals moves values from the queue to slots. -/
theorem sourced_fillFrom (room slot : Nat) (w : Window Proposal) (queue : List Value)
    (hqueue : ∀ v ∈ queue, P v) (hw : ∀ t v, valueIn w t = some v → P v) :
    (∀ v ∈ (fillFrom room slot w queue).queue, P v) ∧
      ∀ t v, valueIn (fillFrom room slot w queue).window t = some v → P v := by
  fun_induction fillFrom room slot w queue with
  | case1 slot w queue => exact ⟨hqueue, hw⟩
  | case2 room slot w window queue _ =>
    exact ⟨hqueue, fun t v hv => hw t v ((valueIn_touch w slot t).symm.trans hv)⟩
  | case3 room slot w window value takenFrom own resends queue hget window' rest ih =>
    apply ih hqueue
    intro t v hv
    rw [valueIn_modify_of_value_eq (by exact fun _ => rfl), valueIn_touch] at hv
    exact hw t v hv
  | case4 room slot w window takenFrom own resends value queue hget window' rest ih =>
    apply ih fun v hv => hqueue v (List.mem_cons_of_mem _ hv)
    intro t v hv
    rw [valueIn_modify, valueIn_touch] at hv
    split at hv
    · obtain rfl := Option.some.inj hv
      exact hqueue value List.mem_cons_self
    · exact hw t v hv
  | case5 room slot w window takenFrom own resends _ =>
    exact ⟨by simp, fun t v hv => hw t v ((valueIn_touch w slot t).symm.trans hv)⟩

/-- Filling the pipeline proposes values that the proposer has. -/
theorem Sourced.fill (h : Sourced P p) (hfill : p.fill = .ok (p', out)) :
    Sourced P p' ∧ ∀ m, Said out (.accept m) → P m.value := by
  rcases fill_cases hfill with ⟨-, rfl, rfl⟩ | ⟨-, -, room, f, rfl, hf, rfl, rfl⟩
  · exact ⟨h, fun m hm => absurd hm not_said_nil⟩
  · obtain ⟨hqueue, hwindow⟩ := sourced_fillFrom room p.nextSlot p.window p.queue h.queue h.slots
    refine ⟨⟨hqueue, hwindow, h.reports⟩, ?_⟩
    rintro m ⟨o, ho, heq⟩
    obtain ⟨⟨t, v⟩, hsent, rfl⟩ := List.mem_map.mp ho
    cases heq
    exact hwindow t v (hf.value_of_sent t v hsent).1

/-- When a proposer begins to propose, it fills holes with no-ops, and values of its own that lost
their slots go back to the queue. -/
theorem Sourced.begun (h : Sourced P p) (hnoop : P .noop) {ownBefore : List (Nat × Value)}
    (hown : p.ownValues = .ok ownBefore) : Sourced P (p.begun ownBefore) where
  queue v hv := by
    rcases List.mem_append.mp hv with hv | hv
    · obtain ⟨⟨t, u⟩, hmem, hu⟩ := List.mem_filterMap.mp hv
      dsimp only at hu
      split at hu
      · cases hu
      · obtain rfl := Option.some.inj hu
        exact h.slots t u (valueAt_of_mem_ownValues hown hmem).2
    · exact h.queue v hv
  slots t v hv := by
    rw [Proposer.begun, valueAt, valueIn_plug, valueIn_restore] at hv
    split at hv
    · obtain rfl := Option.some.inj hv
      cases hseeded : valueIn p.seeded t with
      | none => exact hnoop
      | some u => exact h.seeded hseeded
    · exact h.seeded hv
  reports := h.reports

/-- When a proposer hears of deliveries, values of its own that lost their slots go back to the
queue. -/
theorem Sourced.advanced (h : Sourced P p) (adu : Nat) (decided : List (Nat × Value)) :
    Sourced P (p.advanced adu decided) where
  queue v hv := by
    rcases List.mem_append.mp hv with hv | hv
    · obtain ⟨⟨t, u⟩, -, hu⟩ := List.mem_filterMap.mp hv
      dsimp only at hu
      split at hu
      · unfold lostTo at hu
        split at hu
        · rename_i mine _ _ hget
          split at hu
          · cases hu
          · obtain rfl := Option.some.inj hu
            exact h.slots t mine (by rw [valueAt, valueIn, hget]; rfl)
        · cases hu
      · cases hu
    · exact h.queue v hv
  slots t v hv := by
    rw [Proposer.advanced, valueAt, valueIn_raise] at hv
    split at hv
    · cases hv
    · exact h.slots t v hv
  reports := h.reports

/-- Keeping a promise adds what it reports. -/
theorem Sourced.gather (h : Sourced P p) {m : Promise} (topCounter : Nat)
    (hm : ∀ rep ∈ m.reports, P rep.value) :
    Sourced P { p with topCounter, promises := recordPromise p.promises m } where
  queue := h.queue
  slots := h.slots
  reports rep hrep := by
    obtain ⟨m', hm', hin⟩ := List.mem_flatMap.mp hrep
    rcases mem_recordPromise hm' with rfl | hm'
    · exact hm rep hin
    · exact h.reports rep (List.mem_flatMap.mpr ⟨m', hm', hin⟩)

/-- A submitted value waits. -/
theorem Sourced.submit (h : Sourced P p) {value : Value} (hvalue : P value) :
    Sourced P { p with queue := p.queue ++ [value] } where
  queue v hv := by
    rcases List.mem_append.mp hv with hv | hv
    · exact h.queue v hv
    · obtain rfl := List.mem_singleton.mp hv
      exact hvalue
  slots := h.slots
  reports := h.reports

/-- **Where the values of a proposer come from**: if all that is reported to it and all that it takes
from clients satisfy `P`, as no-ops do, then so does all that it has and proposes. -/
theorem Sourced.act (h : Sourced P p) (hlow : p.window.low = p.adu + 1) (hnoop : P .noop)
    {x : Input} {o : Output} (hreported : ∀ m, x = .promise m → ∀ rep ∈ m.reports, P rep.value)
    (htaken : ∀ v, o.taken = some v → P v) (hact : p.act x = .ok (p', o)) :
    Sourced P p' ∧ ∀ m, Said o.outbound (.accept m) → P m.value := by
  cases acts_of_act hlow hact with
  | quiet same =>
    refine ⟨h.congr same.queue_eq (fun t => ?_) (same.phase_cases.imp And.right And.right),
      fun m hm => absurd hm not_said_nil⟩
    rw [valueAt, same.window_eq]
    rfl
  | ask _ asks =>
    refine ⟨h.congr asks.queue_eq asks.valueAt_eq (Or.inl asks.promises_eq), fun m hm => ?_⟩
    simp [asks.out_eq, Outgoing.message] at hm
  | @gather m topCounter =>
    exact ⟨h.gather topCounter (hreported m rfl), fun m hm => absurd hm not_said_nil⟩
  | fill readies fills =>
    cases readies with
    | begins topCounter ownBefore _ _ _ own =>
      exact ((h.gather topCounter (hreported _ rfl)).begun hnoop own).fill fills
    | submits value => exact (h.submit (htaken value rfl)).fill fills
    | advances adu decided => exact (h.advanced adu decided).fill fills
  | resend _ recounted =>
    refine ⟨h.congr rfl recounted.valueIn_eq (Or.inr rfl), fun m hm => ?_⟩
    obtain ⟨slot, value, -, -, hvalue, heq⟩ := said_of_proposals (fun _ => of_mem_resent) hm
    cases heq
    exact h.slots slot value hvalue

end Proposer

/-! ### Values of a world -/

namespace World

/-- A no-op, or a value that some replica took from a client. -/
def Valid (w : World) (v : Value) : Prop := v = .noop ∨ ∃ j, v ∈ w.submitted j

/-- The values of all proposers, and those that were proposed, are valid. -/
structure Sourced (w : World) : Prop where
  /-- What the proposers have. -/
  proposers : ∀ i, (w.proposers i).Sourced w.Valid
  /-- What was proposed. -/
  proposed : ∀ r slot v, Proposed w.sent r slot v → w.Valid v

variable {w : World} {out : List Outgoing}

theorem sourced_start (c : ReplicaSettings) : (World.start c).Sourced where
  proposers i := Proposer.sourced_start rfl rfl rfl
  proposed r slot v hv := by
    obtain ⟨_, _, hsaid⟩ := hv
    exact absurd hsaid not_said_nil

/-- What is no proposal adds no value. -/
theorem Sourced.append (h : w.Sourced) (hout : ∀ m, ¬ Said out (.accept m)) (r : Round) (slot : Nat)
    (v : Value) (hv : Proposed (w.sent ++ out) r slot v) : w.Valid v := by
  obtain ⟨sender, epochs, hsaid⟩ := hv
  exact h.proposed r slot v ⟨sender, epochs, (said_append.mp hsaid).resolve_right (hout _)⟩

/-- The step of a proposer adds only values that it takes from a client. -/
theorem Sourced.propose (h : w.Sourced) (hw : w.Honest) {i : Nat} {p p' : Proposer}
    {x : Proposer.Input} {o : Proposer.Output} (hp : p.Sourced w.Valid)
    (hlow : p.window.low = p.adu + 1)
    (hsaid : ∀ m, x = .promise m → Said w.sent (.promise m)) (hact : p.act x = .ok (p', o)) :
    Sourced { w with
      proposers := update w.proposers i p'
      sent := w.sent ++ o.outbound
      submitted := update w.submitted i (w.submitted i ++ o.taken.toList) } := by
  set w' : World := { w with
    proposers := update w.proposers i p'
    sent := w.sent ++ o.outbound
    submitted := update w.submitted i (w.submitted i ++ o.taken.toList) } with hw'
  have hvalid : ∀ v, w.Valid v → w'.Valid v := by
    rintro v (rfl | ⟨j, hj⟩)
    · exact Or.inl rfl
    · refine Or.inr ⟨j, ?_⟩
      by_cases hij : j = i
      · subst hij
        simp [hw', hj]
      · simpa [hw', hij] using hj
  have htaken : ∀ v, o.taken = some v → w'.Valid v := fun v hv => Or.inr ⟨i, by simp [hw', hv]⟩
  have hreported : ∀ m, x = .promise m → ∀ rep ∈ m.reports, w'.Valid rep.value :=
    fun m hm rep hrep =>
      hvalid _ (h.proposed _ _ _ (hw.reported m (hsaid m hm) rep hrep).1)
  obtain ⟨hp', hsent⟩ := (hp.mono hvalid).act hlow (Or.inl rfl) hreported htaken hact
  constructor
  · exact (forall_update_iff w.proposers fun _ p => p.Sourced w'.Valid).mpr
      ⟨hp', fun j _ => (h.proposers j).mono hvalid⟩
  · rintro r slot v ⟨sender, epochs, hm⟩
    rcases said_append.mp hm with hm | hm
    · exact hvalid v (h.proposed r slot v ⟨sender, epochs, hm⟩)
    · exact hsent _ hm

end World

variable {c : ReplicaSettings} {Env : World → Event → Prop} {w w' : World}

/-- **Values are valid**, wherever they are on their way, in every reachable world. -/
theorem Reachable.sourced (h : Reachable c Env w) : w.Sourced := by
  induction h with
  | start => exact World.sourced_start c
  | @step w w' e hw _ hallowed hstep ih =>
    cases World.steps_of_step hstep with
    | acceptor act =>
      exact ⟨ih.proposers, ih.append
        (World.not_accept_of_author (by simp) (Acceptor.author_of_act act).2)⟩
    | snapshot => exact ⟨ih.proposers, ih.proposed⟩
    | @proposer i x p out act =>
      refine ih.propose hw.honest (ih.proposers i) (hw.ids i).2.2.2 ?_ act
      rintro m rfl
      exact World.said_of_arrives hallowed.2
    | nothing => exact ih
    | @handOver i note rest p out waiting_eq act =>
      have hheard : ((w.proposers i).hear note.round).Sourced w.Valid :=
        (ih.proposers i).congr rfl (fun _ => rfl) (Or.inr rfl)
      obtain ⟨hproposers, hproposed⟩ := ih.propose (i := i) hw.honest hheard (hw.ids i).2.2.2
        (by simp) act
      rw [Option.toList_none, List.append_nil, update_eq_self] at hproposers hproposed
      exact ⟨hproposers, hproposed⟩
    | learner act =>
      exact ⟨ih.proposers, ih.append
        (World.not_accept_of_author (by simp) (Learner.author_of_act act).2)⟩

/-- What was delivered is valid. -/
theorem Reachable.valid_of_mem_logs (h : Reachable c Env w) {i slot : Nat} {v : Value}
    (hmem : (slot, v) ∈ w.logs i) : w.Valid v := by
  obtain ⟨r, hr⟩ := h.proposed_of_mem_logs hmem
  exact h.sourced.proposed r slot v hr

/-- **Validity**: whatever a learner has delivered after a step is a no-op, or a value that some
replica had taken from a client before the step. -/
theorem Reachable.validity (h : Reachable c Env w) {e : Event} (hallowed : w.Allowed c.replicas e)
    (hstep : w.step e = .ok w') {i slot : Nat} {v : Value} (hmem : (slot, v) ∈ w'.logs i) :
    v = .noop ∨ ∃ j, v ∈ w.submitted j := by
  have hw' : Reachable c (fun _ _ => True) w' :=
    (h.mono fun _ _ _ => trivial).step trivial hallowed hstep
  -- in one step a value is taken or delivered, not both
  cases World.steps_of_step hstep with
  | acceptor => exact h.valid_of_mem_logs hmem
  | snapshot => exact h.valid_of_mem_logs hmem
  | proposer => exact h.valid_of_mem_logs hmem
  | nothing => exact h.valid_of_mem_logs hmem
  | handOver => exact h.valid_of_mem_logs hmem
  | learner => exact hw'.valid_of_mem_logs hmem

/-- Two replicas lead one after the other. Of the proposals of the first, the one for slot 1 is lost,
and the vote for slot 2 reaches the second through an acceptor that took it over. A learner that
missed the votes for slot 1 catches up with it. -/
theorem validity_of_caught_up : ∃ w w', Reachable {} (fun _ _ => True) w ∧
    w.step (.learner 2 (.response ⟨0, [(1, .noop)]⟩)) = .ok w' ∧
    w'.logs 2 = [(1, .noop), (2, .appBatch [66])] ∧
      ∃ j, .appBatch [66] ∈ w.submitted j := by
  let r : Round := ⟨1, 0⟩
  let r' : Round := ⟨1, 1⟩
  let e : EpochVector := .zeros 3
  let v := Value.appBatch [65]
  let v' := Value.appBatch [66]
  obtain ⟨w, w', hw, hallowed, hstep, hlog⟩ := World.exists_reachable_step {} (fun _ _ => True)
    [.proposer 0 (.trust 0), .proposer 0 (.submit v), .proposer 0 (.submit v'),
      .acceptor 0 (.prepare ⟨0, r, 0⟩), .acceptor 1 (.prepare ⟨0, r, 0⟩),
      .proposer 0 (.promise ⟨0, r, [], e⟩), .proposer 0 (.promise ⟨1, r, [], e⟩),
      .acceptor 0 (.accept ⟨0, r, 2, v', e⟩), .snapshot 0 0,
      .acceptor 2 (.takeOver ⟨r, [⟨2, r, v'⟩]⟩), .acceptor 0 (.raiseLow 3),
      .proposer 1 (.trust 1), .acceptor 1 (.prepare ⟨1, r', 0⟩), .acceptor 2 (.prepare ⟨1, r', 0⟩),
      .proposer 1 (.promise ⟨1, r', [], e⟩), .proposer 1 (.promise ⟨2, r', [⟨2, r, v'⟩], e⟩),
      .acceptor 1 (.accept ⟨1, r', 1, .noop, e⟩), .acceptor 2 (.accept ⟨1, r', 1, .noop, e⟩),
      .acceptor 1 (.accept ⟨1, r', 2, v', e⟩), .acceptor 2 (.accept ⟨1, r', 2, v', e⟩),
      .learner 0 (.learn ⟨1, 1, r', .noop, e⟩), .learner 0 (.learn ⟨2, 1, r', .noop, e⟩),
      .learner 0 (.learn ⟨1, 2, r', v', e⟩), .learner 0 (.learn ⟨2, 2, r', v', e⟩),
      .learner 2 (.trust 0), .learner 2 (.learn ⟨1, 2, r', v', e⟩),
      .learner 2 (.learn ⟨2, 2, r', v', e⟩), .learner 0 (.request ⟨2, [(1, 1)]⟩)]
    (.learner 2 (.response ⟨0, [(1, .noop)]⟩))
    (fun w' => w'.logs 2 = [(1, .noop), (2, v')]) (by decide +kernel)
  have hmem : (2, v') ∈ w'.logs 2 := by simp [hlog]
  have hnoop : Value.appBatch [66] ≠ .noop := by decide
  exact ⟨w, w', hw, hstep, hlog, (hw.validity hallowed hstep hmem).resolve_left hnoop⟩

end ReplicatedLog
