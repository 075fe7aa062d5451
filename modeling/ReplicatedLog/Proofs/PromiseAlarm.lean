import ReplicatedLog.Proofs.Roles
import ReplicatedLog.Service.Proposer

/-!
# The alarm of phase one

A running proposer that waits for promises must not wait for ever: either an alarm is running that was set
for its current round, or the notice of one that went off is still to be handled. Outside phase one no
alarm runs, and never do two run at once (`alarm_in_step`).

What the role does to its phase and its round does not matter for this. Whatever it was, the alarm is
brought back in step when the messages of the role are sent (`inStep_keepTimer`); all that is needed
before is that the proposer knows the handle of every alarm that runs, so that it can clear it
(`Watches`). Between an alarm that goes off and its notice anything may happen: whatever makes the
proposer send sets a new alarm, which is then cleared, or set anew, when the notice is handled.
-/

namespace ReplicatedLog

namespace ProposerService

/-! ### What can happen to a running proposer -/

/-- What can happen to a running proposer, and when. An alarm that is set in answer to it is set for
`delay`. -/
inductive Input where
  /-- An event. -/
  | event (now delay : Nat) (event : ProposerEvent)
  /-- A client submits a value. -/
  | propose (now delay : Nat) (value : Value)
  deriving DecidableEq, Repr

/-- The running proposer after an input, and what it does about it. -/
def step (s : ProposerService) : Input → Checked (ProposerService × List Effect)
  | .event now delay event => s.handle now delay event
  | .propose now delay value => do
    let (s, effects, _) ← s.propose now delay value
    return (s, effects)

/-- The steps of a run, in order. -/
abbrev Past := List (Turn ProposerService Input (List Effect))

/-- An alarm is set in a step. -/
def Sets (t : Turn ProposerService Input (List Effect)) (alarm : Nat × Nat) : Prop :=
  alarm ∉ t.before.alarms.running ∧ alarm ∈ t.after.alarms.running

variable {s s' : ProposerService} {x : Input} {effects : List Effect} {past : Past} {now delay : Nat}
  {c : ReplicaSettings}

/-! ### Keeping in step -/

/-- The proposer knows the handles of the alarms that are running, and these handles are not given out
again. -/
structure Watches (s : ProposerService) : Prop where
  /-- It can clear them. -/
  handles_eq : s.alarms.running.map Prod.fst = s.timer.toList
  /-- The next alarm is another one. -/
  handle_lt : ∀ handle, s.timer = some handle → handle < s.alarms.nextHandle

/-- The alarms are in step with the role. -/
structure InStep (s : ProposerService) : Prop extends Watches s where
  /-- Outside phase one no alarm runs. -/
  timer_eq_none : s.proposer.phase ≠ .one → s.timer = none
  /-- An alarm that runs was set for the current round. -/
  timedRound_eq : s.timer ≠ none → s.timedRound = s.proposer.round
  /-- In phase one an alarm runs, or a notice is to be handled. -/
  notices_pos : s.proposer.phase = .one → s.timer = none → 0 < s.notices

/-- How a step may change the alarms, and the round that one was last set for. -/
inductive Rearms (alarms : Alarms) (timedRound : Round) (s' : ProposerService) : Prop
  /-- None is set. -/
  | keeps (running_sub : ∀ alarm ∈ s'.alarms.running, alarm ∈ alarms.running)
      (timedRound_eq : s'.timedRound = timedRound)
  /-- One is set for the current round, in place of all others. -/
  | sets {deadline : Nat} (running_eq : s'.alarms.running = [(alarms.nextHandle, deadline)])
      (timedRound_eq : s'.timedRound = s'.proposer.round)

theorem Rearms.refl (s : ProposerService) : Rearms s.alarms s.timedRound s := .keeps (fun _ h => h) rfl

/-- Clearing the alarm that the proposer knows of leaves none. -/
theorem running_stopTimer (h : s.Watches) : s.stopTimer.alarms.running = [] := by
  have hhandles := h.handles_eq
  unfold stopTimer
  split
  · rename_i htimer
    rw [htimer] at hhandles
    exact List.map_eq_nil_iff.mp hhandles
  · rename_i handle htimer
    rw [htimer] at hhandles
    exact Alarms.running_clear_of_toList hhandles

/-- Clearing the alarm changes nothing else. -/
theorem exists_stopTimer (s : ProposerService) : ∃ running,
    s.stopTimer = { s with timer := none, alarms := { s.alarms with running } } := by
  unfold stopTimer
  split
  · rename_i htimer
    exact ⟨s.alarms.running, by rw [← htimer]⟩
  · exact ⟨_, rfl⟩

/-- Setting an alarm leaves this one and no other. -/
theorem startTimer_eq (h : s.Watches) (now delay : Nat) : s.startTimer now delay =
    { s with
      timer := some s.alarms.nextHandle
      alarms := ⟨[(s.alarms.nextHandle, now + delay)], s.alarms.nextHandle + 1⟩
      timedRound := s.proposer.round } := by
  have hrunning := running_stopTimer h
  obtain ⟨running, heq⟩ := s.exists_stopTimer
  rw [heq] at hrunning
  obtain rfl : running = [] := hrunning
  simp [startTimer, heq, Alarms.set]

/-- **Sending brings the alarm back in step**, whatever the role did. -/
theorem inStep_keepTimer (h : s.Watches) (now delay : Nat) :
    (s.keepTimer now delay).InStep ∧ Rearms s.alarms s.timedRound (s.keepTimer now delay) := by
  unfold keepTimer
  split
  · rename_i hphase
    have hrunning := running_stopTimer h
    obtain ⟨running, heq⟩ := s.exists_stopTimer
    rw [heq] at hrunning ⊢
    obtain rfl : running = [] := hrunning
    exact ⟨⟨⟨rfl, by simp⟩, fun _ => rfl, by simp, fun hone => absurd hone hphase⟩,
      .keeps (by simp) rfl⟩
  rename_i hphase
  rw [Decidable.not_not] at hphase
  split
  · rw [startTimer_eq h]
    exact ⟨⟨⟨rfl, by simp⟩, fun hne => absurd hphase hne, fun _ => rfl, by simp⟩, .sets rfl rfl⟩
  · rename_i hset
    simp only [Bool.or_eq_true, Option.isNone_iff_eq_none, bne_iff_ne, ne_eq, not_or, Decidable.not_not] at hset
    obtain ⟨htimer, hround⟩ := hset
    exact ⟨⟨h, fun hne => absurd hphase hne, fun _ => hround, fun _ hnone => absurd hnone htimer⟩,
      .refl s⟩

/-! ### Steps -/

/-- The role acts, and the alarm is brought in step. -/
theorem inStep_of_act {f : Proposer → Checked (Proposer × List Outgoing)} (h : s.Watches)
    (hact : s.act now delay f = .ok (s', effects)) : s'.InStep ∧ Rearms s.alarms s.timedRound s' := by
  obtain ⟨⟨proposer, out⟩, -, hret⟩ := Checked.bind_eq_ok_iff.mp hact
  cases hret
  exact inStep_keepTimer (s := { s with proposer }) ⟨h.handles_eq, h.handle_lt⟩ now delay

/-- The alarm goes off that the proposer knows of, and leaves a notice; no other alarm can. -/
theorem inStep_of_fire (h : s.InStep) {handle : Nat}
    (hfire : s.handle now delay (.fire handle) = .ok (s', effects)) :
    s'.InStep ∧ Rearms s.alarms s.timedRound s' := by
  unfold ProposerService.handle at hfire
  dsimp only at hfire
  split at hfire
  · rename_i hrunning
    have hhandles := h.handles_eq
    rw [Alarms.isRunning_iff, hhandles, Option.mem_toList] at hrunning
    rw [hrunning] at hhandles
    have hnone := Alarms.running_clear_of_toList hhandles
    cases hfire
    exact ⟨⟨⟨by rw [hnone]; rfl, by simp⟩, fun _ => rfl, by simp, fun _ _ => Nat.succ_pos _⟩,
      .keeps (by simp [hnone]) rfl⟩
  · cases hfire
    exact ⟨h, .refl s⟩

/-- A refusal changes neither the phase nor the round. -/
theorem eq_of_submit_error {p p' : Proposer} {value : Value} {fault : Fault}
    (h : p.submit value = .ok (p', .error fault)) : p' = p := by
  unfold Proposer.submit at h
  split at h
  · cases h
    rfl
  · obtain ⟨_, -, hret⟩ := Checked.bind_eq_ok_iff.mp h
    cases hret

theorem inStep_of_propose (h : s.InStep) {value : Value} {answer : Except Fault Unit}
    (hpropose : s.propose now delay value = .ok (s', effects, answer)) :
    s'.InStep ∧ Rearms s.alarms s.timedRound s' := by
  obtain ⟨⟨proposer, result⟩, hsubmit, hret⟩ := Checked.bind_eq_ok_iff.mp hpropose
  cases result with
  | ok out =>
    cases hret
    exact inStep_keepTimer (s := { s with proposer }) ⟨h.handles_eq, h.handle_lt⟩ now delay
  | error fault =>
    obtain rfl := eq_of_submit_error hsubmit
    cases hret
    exact ⟨h, .refl s⟩

/-- **A step keeps the alarm in step.** -/
theorem inStep_of_handle (h : s.InStep) {event : ProposerEvent}
    (hhandle : s.handle now delay event = .ok (s', effects)) : s'.InStep ∧ Rearms s.alarms s.timedRound s' := by
  cases event with
  | message m =>
    cases m with
    | promise m => exact inStep_of_act (f := fun p => p.promise m) h.toWatches hhandle
    | _ =>
      cases hhandle
      exact ⟨h, .refl s⟩
  | trust leader => exact inStep_of_act (f := fun p => p.trust leader) h.toWatches hhandle
  | setEpochs epochs =>
    cases hhandle
    exact ⟨⟨⟨h.handles_eq, h.handle_lt⟩, h.timer_eq_none, h.timedRound_eq, h.notices_pos⟩,
      .keeps (fun _ hmem => hmem) rfl⟩
  | advanced adu delivered highestRound =>
    exact inStep_of_act (f := fun p => (p.hear highestRound).noteDelivered adu delivered) h.toWatches
      hhandle
  | tick => exact inStep_of_act (f := Proposer.checkProgress) h.toWatches hhandle
  | fire handle => exact inStep_of_fire h hhandle
  | notice =>
    unfold ProposerService.handle at hhandle
    dsimp only at hhandle
    split at hhandle
    · cases hhandle
      exact ⟨h, .refl s⟩
    · -- one notice less, but phase one starts again and sets an alarm
      exact inStep_of_act (s := { s with notices := s.notices - 1 }) ⟨h.handles_eq, h.handle_lt⟩ hhandle

theorem inStep_of_step (h : s.InStep) (hstep : s.step x = .ok (s', effects)) :
    s'.InStep ∧ Rearms s.alarms s.timedRound s' := by
  cases x with
  | event now delay event => exact inStep_of_handle h hstep
  | propose now delay value =>
    obtain ⟨⟨s₁, _, _⟩, hpropose, hret⟩ := Checked.bind_eq_ok_iff.mp hstep
    cases hret
    exact inStep_of_propose h hpropose

/-! ### Runs -/

theorem inStep_start (c : ReplicaSettings) : (start c).InStep :=
  ⟨⟨rfl, by simp [start]⟩, fun _ => rfl, fun hne => absurd rfl hne, by simp [start, Replica.ofSettings,
    Replica.start]⟩

theorem inStep_of_runs (h : Runs step (start c) s past) : s.InStep := by
  induction h with
  | nil => exact inStep_start c
  | step _ act_eq ih => exact (inStep_of_step ih act_eq).1

/-- An alarm that runs was set in a step of the run, for the round that the proposer had after it. -/
theorem exists_sets_of_runs (h : Runs step (start c) s past) {alarm : Nat × Nat}
    (halarm : alarm ∈ s.alarms.running) :
    ∃ t ∈ past, Sets t alarm ∧ t.after.proposer.round = s.timedRound := by
  induction h with
  | nil => exact absurd halarm List.not_mem_nil
  | @step s s' x effects past run act_eq ih =>
    have hbefore := inStep_of_runs run
    cases (inStep_of_step hbefore act_eq).2 with
    | keeps running_sub timedRound_eq =>
      obtain ⟨t, ht, hsets, hround⟩ := ih (running_sub alarm halarm)
      exact ⟨t, List.mem_append_left _ ht, hsets, hround.trans timedRound_eq.symm⟩
    | sets running_eq timedRound_eq =>
      refine ⟨_, List.mem_append_right _ List.mem_cons_self, ⟨fun hmem => ?_, halarm⟩,
        timedRound_eq.symm⟩
      -- its handle was not given out before
      have hhandle : s.alarms.nextHandle = alarm.1 := by
        rw [running_eq, List.mem_singleton] at halarm
        rw [halarm]
      have hfst : alarm.1 ∈ s.alarms.running.map Prod.fst := List.mem_map_of_mem hmem
      rw [hbefore.handles_eq, Option.mem_toList] at hfst
      exact absurd (hbefore.handle_lt _ hfst) (by omega)

/-- **The alarm of phase one is in step**, after every step of a running proposer, whatever happens to it
and whenever its alarms go off and the notices of them are handled. In phase one either the notice of an
alarm is still to be handled, or an alarm runs, whose handle the proposer knows and which it set in a step
after which its round was the current one. Outside phase one no alarm runs. And never does more than one. -/
theorem alarm_in_step (h : Runs step (start c) s past) :
    (s.proposer.phase = .one → 0 < s.notices ∨ ∃ handle deadline,
      s.timer = some handle ∧ s.alarms.running = [(handle, deadline)] ∧
        s.timedRound = s.proposer.round ∧
        ∃ t ∈ past, Sets t (handle, deadline) ∧ t.after.proposer.round = s.proposer.round) ∧
    (s.proposer.phase ≠ .one → s.alarms.running = []) ∧
    s.alarms.running.length ≤ 1 := by
  have hstep := inStep_of_runs h
  have hhandles := hstep.handles_eq
  refine ⟨fun hone => ?_, fun hne => ?_, ?_⟩
  · cases htimer : s.timer with
    | none => exact Or.inl (hstep.notices_pos hone htimer)
    | some handle =>
      right
      rw [htimer] at hhandles
      obtain ⟨⟨handle, deadline⟩, hrunning, rfl⟩ := List.map_eq_singleton_iff.mp hhandles
      have hround := hstep.timedRound_eq (by simp [htimer])
      have hmem : (handle, deadline) ∈ s.alarms.running := by simp [hrunning]
      obtain ⟨t, ht, hsets, hset⟩ := exists_sets_of_runs h hmem
      exact ⟨handle, deadline, rfl, hrunning, hround, t, ht, hsets, hset.trans hround⟩
  · rw [hstep.timer_eq_none hne] at hhandles
    exact List.map_eq_nil_iff.mp hhandles
  · rw [← List.length_map, hhandles]
    cases s.timer <;> simp

/-- A value is refused before the proposer leads. The alarm of its first round goes off; before the notice
of that is handled, a promise for another round makes the proposer set a second alarm for the first round.
The notice starts the second round, whose alarm takes the place of the second one, which does not go off. -/
theorem alarm_in_step_of_late_notice : ∃ s past,
    Runs step (start {}) s past ∧ s.proposer.phase = .one ∧ s.notices = 0 ∧
    s.proposer.round = ⟨2, 0⟩ ∧ s.alarms.running = [(2, 1302)] ∧
    (∃ t ∈ past, t.after.notices = 1 ∧ t.after.alarms.running = []) ∧
    (∃ t ∈ past, t.after.notices = 1 ∧ t.after.alarms.running = [(1, 1101)]) ∧
    ∃ handle deadline, s.timer = some handle ∧ s.alarms.running = [(handle, deadline)] ∧
      ∃ t ∈ past, Sets t (handle, deadline) ∧ t.after.proposer.round = ⟨2, 0⟩ := by
  obtain ⟨s, past, h, hone, hnotices, hround, hrunning, hfired, hset⟩ :=
    Runs.exists_of_replay step (start {})
      [.propose 0 500 (.appBatch [65]), .event 0 600 (.trust 0), .event 600 500 (.fire 0),
        .event 601 500 (.message (.promise ⟨1, ⟨0, 1⟩, [], .zeros 3⟩)), .event 602 700 .notice,
        .event 1101 500 (.fire 1)]
      (fun s past => s.proposer.phase = .one ∧ s.notices = 0 ∧ s.proposer.round = ⟨2, 0⟩ ∧
        s.alarms.running = [(2, 1302)] ∧
        (∃ t ∈ past, t.after.notices = 1 ∧ t.after.alarms.running = []) ∧
        ∃ t ∈ past, t.after.notices = 1 ∧ t.after.alarms.running = [(1, 1101)]) (by decide +kernel)
  obtain ⟨handle, deadline, htimer, hsingle, -, t, ht, hsets, hsame⟩ :=
    ((alarm_in_step h).1 hone).resolve_left (by simp [hnotices])
  exact ⟨s, past, h, hone, hnotices, hround, hrunning, hfired, hset, handle, deadline, htimer, hsingle,
    t, ht, hsets, hsame.trans hround⟩

end ProposerService

end ReplicatedLog
