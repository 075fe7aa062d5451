import ReplicatedLog.Proofs.CatchUp
import ReplicatedLog.Service.Learner

/-!
# Asking for missing slots

A running learner asks for what it misses, and then gives the request time to be answered. Whether an
answer is awaited is known to the role; whether a tick was seen since the request is known to whoever runs
it. Together they are the age of the last request (`LearnerService.age`), in ticks, up to two.

The role asks only if it awaits no answer, or if it is told that none came (`Learner.asking_of_act`). So an
event asks for missing slots only if the last request is two ticks old by then; otherwise only a tick makes
it older, and only an answer makes its age not matter any more (`LearnerService.Ages`). Both that requests
are not too frequent and that none is awaited forever follow by induction on runs (`paced_requests`).
-/

namespace ReplicatedLog

/-- Whether a message asks for missing slots. -/
def Message.asks : Message → Bool
  | .catchUpRequest _ => true
  | _ => false

namespace Learner

variable {l l' : Learner} {x : Input} {d : Delivery}

/-- Whether an input makes the learner wait no longer for an answer. -/
def Input.endsWait : Input → Bool
  | .response _ => true
  | .askAgain => true
  | _ => false

/-- A step asks for all that is missing, and then an answer is awaited; before, none was, or it was given
up. Or the step asks for nothing, and an answer is awaited as before, unless it came or was given up. -/
inductive Asking (l : Learner) (x : Input) (l' : Learner) (outbound : List Outgoing) : Prop
  /-- Missing slots are asked for. -/
  | asks {o : Outgoing} (outbound_eq : outbound = [o]) (aims : l'.Aims o)
      (free : l.catchingUp = false ∨ x = .askAgain) (catchingUp_eq : l'.catchingUp = true)
  /-- Nothing is asked for. -/
  | quiet (silent : ∀ o ∈ outbound, o.message.asks = false)
      (catchingUp_eq : l'.catchingUp = (l.catchingUp && !x.endsWait))

theorem catchingUp_of_deliver {delivered : List (Nat × Value)} (h : l.deliver = .ok (l', delivered)) :
    l'.catchingUp = l.catchingUp := by
  obtain ⟨next, -, hret⟩ := Checked.bind_eq_ok_iff.mp h
  obtain ⟨rfl, rfl⟩ := Prod.mk.inj (Except.ok.inj hret)
  rfl

theorem asking_of_learn {m : Learn} (h : l.learn m = .ok (l', d)) :
    Asking l (.learn m) l' d.outbound := by
  rcases learn_cases h with ⟨_, _, rfl, rfl⟩ | ⟨_, _, l₁, delivered, outbound, hdeliver, rfl, hrest⟩
  · exact .quiet (by simp) (by simp [Input.endsWait])
  have hsame := catchingUp_of_deliver hdeliver
  dsimp only at hsame
  rcases hrest with ⟨rfl, rfl⟩ | hask
  · exact .quiet (by simp) (by simp [Input.endsWait, hsame])
  rcases aims_of_askForMissing hask with ⟨rfl, rfl⟩ | ⟨hfree, rfl, o, rfl, haims⟩
  · exact .quiet (by simp) (by simp [Input.endsWait, hsame])
  · exact .asks rfl haims (Or.inl (hsame ▸ hfree)) rfl

/-- **When the role asks**: a step asks for missing slots only if no answer is awaited. -/
theorem asking_of_act (h : l.act x = .ok (l', d)) : Asking l x l' d.outbound := by
  cases x with
  | trust leader =>
    cases h
    exact .quiet (by simp) (by simp [Input.endsWait, Learner.trust])
  | learn m => exact asking_of_learn h
  | request m =>
    obtain ⟨o, hanswer, hret⟩ := Checked.bind_eq_ok_iff.mp h
    cases hret
    obtain ⟨decided, rfl, -⟩ := answer_cases hanswer
    exact .quiet (by simp [Outgoing.message, Message.asks]) (by simp [Input.endsWait])
  | response m =>
    obtain ⟨⟨l₁, delivered⟩, hdeliver, hret⟩ := Checked.bind_eq_ok_iff.mp h
    obtain ⟨rfl, rfl⟩ := Prod.mk.inj (Except.ok.inj hret)
    exact .quiet (by simp) (by simp [Input.endsWait, catchingUp_of_deliver hdeliver])
  | askAgain =>
    obtain ⟨⟨l₁, outbound⟩, hask, hret⟩ := Checked.bind_eq_ok_iff.mp h
    obtain ⟨rfl, rfl⟩ := Prod.mk.inj (Except.ok.inj hret)
    rcases aims_of_askForMissing hask with ⟨rfl, rfl⟩ | ⟨-, rfl, o, rfl, haims⟩
    · exact .quiet (by simp) (by simp [Input.endsWait])
    · exact .asks rfl haims (Or.inr rfl) rfl
  | setEpochs epochs =>
    cases h
    exact .quiet (by simp) (by simp [Input.endsWait, Learner.setEpochs])

end Learner

/-! ### What can happen to a running learner -/

namespace LearnerEvent

/-- What an event is about are slots below `b`. -/
def Within (b : Nat) : LearnerEvent → Prop
  | .message (.learn m) => m.slot < b
  | .message (.catchUpResponse m) => ∀ d ∈ m.decided, d.1 < b
  | _ => True

instance (b : Nat) (x : LearnerEvent) : Decidable (x.Within b) := by
  unfold Within
  split <;> infer_instance

/-- An answer to a request for missing slots arrives. -/
def IsAnswer : LearnerEvent → Prop
  | .message (.catchUpResponse _) => True
  | _ => False

instance (x : LearnerEvent) : Decidable x.IsAnswer := by
  unfold IsAnswer
  split <;> infer_instance

/-- How many ticks an event is. -/
def ticks : LearnerEvent → Nat
  | .tick => 1
  | _ => 0

end LearnerEvent

namespace LearnerService

variable {s s' : LearnerService} {x : LearnerEvent} {effects : List Effect} {c : ReplicaSettings}

/-- The steps of a run, in order. -/
abbrev Past := List (Turn LearnerService LearnerEvent (List Effect))

variable {past later : Past}

/-- The messages that ask for missing slots, among what a learner does. -/
def requests (effects : List Effect) : List Outgoing :=
  effects.filterMap fun
    | .send o => if o.message.asks then some o else none
    | _ => none

/-- How many ticks there are in a run. -/
def ticks (past : Past) : Nat := past.countP fun t => t.input.ticks == 1

@[simp]
theorem ticks_append (past later : Past) : ticks (past ++ later) = ticks past + ticks later :=
  List.countP_append

@[simp]
theorem ticks_singleton (t : Turn LearnerService LearnerEvent (List Effect)) :
    ticks [t] = t.input.ticks := by
  cases h : t.input <;> simp [ticks, h, LearnerEvent.ticks]

@[simp]
theorem requests_nil : requests [] = [] := rfl

@[simp]
theorem requests_append (effects effects' : List Effect) :
    requests (effects ++ effects') = requests effects ++ requests effects' := List.filterMap_append

/-- Only the messages of the role can ask. -/
theorem requests_effectsOf (l : Learner) (d : Delivery) :
    requests (effectsOf l d) = d.outbound.filter fun o => o.message.asks := by
  have hsent : requests (d.outbound.map .send) = d.outbound.filter fun o => o.message.asks := by
    simp [requests, List.filterMap_map, ← List.filterMap_eq_filter, Option.guard]
  unfold effectsOf
  split
  · rw [List.append_nil, hsent]
  · -- what a delivery adds are effects of the service itself, none of them sent
    rw [requests_append, hsent, List.append_right_eq_self]
    simp [requests]

/-! ### Events and the role -/

/-- What an event is for the role. Messages for other roles are nothing to it, and neither is the tick
that a request is given to be answered. -/
def roleInput (s : LearnerService) : LearnerEvent → Option Learner.Input
  | .message (.learn m) => some (.learn m)
  | .message (.catchUpRequest m) => some (.request m)
  | .message (.catchUpResponse m) => some (.response m)
  | .message _ => none
  | .trust leader => some (.trust leader)
  | .setEpochs epochs => some (.setEpochs epochs)
  | .tick => if s.learner.catchingUp && !s.aged then none else some .askAgain

/-- **What an event does**: it makes the role act, or it makes a request older. -/
theorem handle_eq (s : LearnerService) (x : LearnerEvent) : s.handle x =
    match s.roleInput x with
    | none => .ok ({ s with aged := s.aged || x.ticks == 1 }, [])
    | some i => do
      let (learner, d) ← s.learner.act i
      return ({ s with learner, aged := s.aged && !i.endsWait }, effectsOf learner d) := by
  cases x with
  | message m =>
    cases m with
    | learn m => simp [roleInput, handle, Learner.act, Learner.Input.endsWait]
    | catchUpRequest m => simp [roleInput, handle, Learner.act, Learner.Input.endsWait, effectsOf]
    | catchUpResponse m => simp [roleInput, handle, Learner.act, Learner.Input.endsWait]
    | _ => simp [roleInput, handle, LearnerEvent.ticks]
  | trust leader => simp [roleInput, handle, Learner.act, Learner.Input.endsWait, effectsOf]
  | setEpochs epochs => simp [roleInput, handle, Learner.act, Learner.Input.endsWait, effectsOf]
  | tick =>
    unfold handle roleInput
    dsimp only
    split
    · simp [LearnerEvent.ticks]
    · simp [Learner.act, Learner.Input.endsWait, effectsOf]

/-- An event is a tick that ends the wait for an answer, or an answer, or neither of them. -/
theorem roleInput_cases {i : Learner.Input} (h : s.roleInput x = some i) :
    (i = .askAgain ∧ x.ticks = 1 ∧ (s.learner.catchingUp = true → s.aged = true)) ∨
      ((∃ m, i = .response m) ∧ x.IsAnswer ∧ x.ticks = 0) ∨ (i.endsWait = false ∧ x.ticks = 0) := by
  cases x with
  | message m =>
    cases m with
    | learn m =>
      cases h
      exact Or.inr (Or.inr ⟨rfl, rfl⟩)
    | catchUpRequest m =>
      cases h
      exact Or.inr (Or.inr ⟨rfl, rfl⟩)
    | catchUpResponse m =>
      cases h
      exact Or.inr (Or.inl ⟨⟨m, rfl⟩, trivial, rfl⟩)
    | _ => cases h
  | trust leader =>
    cases h
    exact Or.inr (Or.inr ⟨rfl, rfl⟩)
  | setEpochs epochs =>
    cases h
    exact Or.inr (Or.inr ⟨rfl, rfl⟩)
  | tick =>
    unfold roleInput at h
    dsimp only at h
    split at h
    · cases h
    · rename_i hwaits
      cases h
      exact Or.inl ⟨rfl, rfl, by simpa using hwaits⟩

theorem within_of_roleInput {b : Nat} {i : Learner.Input} (h : s.roleInput x = some i)
    (hx : x.Within b) : i.Within b := by
  cases x with
  | message m =>
    cases m with
    | learn m =>
      cases h
      exact hx
    | catchUpRequest m =>
      cases h
      trivial
    | catchUpResponse m =>
      cases h
      exact hx
    | _ => cases h
  | trust leader =>
    cases h
    trivial
  | setEpochs epochs =>
    cases h
    trivial
  | tick =>
    unfold roleInput at h
    dsimp only at h
    split at h
    · cases h
    · cases h
      trivial

/-- What is nothing to the role is not a tick, or it is one that a new request is given. -/
theorem of_roleInput_eq_none (h : s.roleInput x = none) :
    x.ticks = 0 ∨ x.ticks = 1 ∧ s.learner.catchingUp = true ∧ s.aged = false := by
  cases x with
  | message m => exact Or.inl rfl
  | trust leader => cases h
  | setEpochs epochs => cases h
  | tick =>
    unfold roleInput at h
    dsimp only at h
    split at h
    · rename_i hwaits
      exact Or.inr ⟨rfl, by simpa using hwaits⟩
    · cases h

/-! ### The age of a request -/

/-- How many ticks the last request has seen without being answered or given up. Two are enough for another
one; a learner that awaits no answer need not wait for them. -/
def age (s : LearnerService) : Nat := if s.learner.catchingUp then s.aged.toNat else 2

theorem age_le (s : LearnerService) : s.age ≤ 2 := by
  unfold age
  split
  · exact (Bool.toNat_le _).trans (Nat.le_succ 1)
  · exact le_rfl

theorem catchingUp_of_two_le_age (h : 2 ≤ s.age) : s.learner.catchingUp = false := by
  by_contra hpending
  rw [Bool.not_eq_false] at hpending
  have hle := Bool.toNat_le s.aged
  rw [age, if_pos hpending] at h
  omega

/-- What an event does about missing slots, and to the age of the last request. -/
inductive Ages (s : LearnerService) (x : LearnerEvent) (s' : LearnerService)
    (effects : List Effect) : Prop
  /-- They are asked for. The last request is old enough, and the new one has no age. -/
  | asks {o : Outgoing} (requests_eq : requests effects = [o]) (aims : s'.learner.Aims o)
      (old : 2 ≤ s.age + x.ticks) (age_eq : s'.age = 0)
  /-- An answer comes. -/
  | answered (requests_eq : requests effects = []) (isAnswer : x.IsAnswer)
  /-- The request gets older with a tick. -/
  | waits (requests_eq : requests effects = []) (age_eq : s'.age = min 2 (s.age + x.ticks))

/-- Only a request that is old enough is followed by another one, which is new. -/
theorem Ages.of_ne_nil (h : s.Ages x s' effects) (hasks : requests effects ≠ []) :
    2 ≤ s.age + x.ticks ∧ s'.age = 0 := by
  cases h with
  | asks _ _ old age_eq => exact ⟨old, age_eq⟩
  | answered requests_eq => exact absurd requests_eq hasks
  | waits requests_eq => exact absurd requests_eq hasks

/-- A request that is given up is old enough for another one. -/
theorem two_le_age_add_one (h : s.learner.catchingUp = true → s.aged = true) : 2 ≤ s.age + 1 := by
  unfold age
  split
  · rename_i hpending
    simp [h hpending]
  · exact Nat.le_succ 2

/-- An event that is nothing to the role. -/
theorem ages_of_wait (h : s.roleInput x = none) :
    s.Ages x { s with aged := s.aged || x.ticks == 1 } [] := by
  rcases of_roleInput_eq_none h with hticks | ⟨hticks, hpending, hfresh⟩
  · refine .waits rfl ?_
    rw [hticks, Nat.add_zero, Nat.min_eq_right s.age_le]
    simp [age]
  · exact .waits rfl (by simp [age, hticks, hpending, hfresh])

/-- An event that makes the role act. -/
theorem ages_of_act {i : Learner.Input} {learner : Learner} {d : Delivery}
    (haged : s.aged = true → s.learner.catchingUp = true) (h : s.roleInput x = some i)
    (hact : s.learner.act i = .ok (learner, d)) :
    s.Ages x { s with learner, aged := s.aged && !i.endsWait } (effectsOf learner d) := by
  have hkind := roleInput_cases h
  cases Learner.asking_of_act hact with
  | @asks o outbound_eq aims free catchingUp_eq =>
    refine .asks (o := o) ?_ aims ?_ ?_
    · obtain ⟨leader, ranges, rfl, -⟩ := aims
      rw [requests_effectsOf, outbound_eq]
      rfl
    · rcases free with hfree | rfl
      · simp [age, hfree]
      · rcases hkind with ⟨-, hticks, hlost⟩ | ⟨⟨m, hm⟩, -⟩ | ⟨hends, -⟩
        · exact hticks ▸ two_le_age_add_one hlost
        · cases hm
        · cases hends
    · have hnew : (s.aged && !i.endsWait) = false := by
        rcases free with hfree | rfl
        · have hfresh : s.aged = false := by simpa [hfree] using haged
          simp [hfresh]
        · simp [Learner.Input.endsWait]
      simp [age, catchingUp_eq, hnew]
  | quiet silent catchingUp_eq =>
    have hsilent : requests (effectsOf learner d) = [] := by
      rw [requests_effectsOf, List.filter_eq_nil_iff]
      simpa using silent
    rcases hkind with ⟨rfl, hticks, hlost⟩ | ⟨-, hanswer, -⟩ | ⟨hends, hticks⟩
    · refine .waits hsilent ?_
      rw [hticks, Nat.min_eq_left (two_le_age_add_one hlost)]
      simp [age, catchingUp_eq, Learner.Input.endsWait]
    · exact .answered hsilent hanswer
    · refine .waits hsilent ?_
      rw [hticks, Nat.add_zero, Nat.min_eq_right s.age_le]
      simp [age, catchingUp_eq, hends]

/-- Only a request whose answer is awaited can have seen a tick. -/
theorem aged_of_handle (haged : s.aged = true → s.learner.catchingUp = true)
    (h : s.handle x = .ok (s', effects)) : s'.aged = true → s'.learner.catchingUp = true := by
  rw [handle_eq] at h
  cases hinput : s.roleInput x with
  | none =>
    rw [hinput] at h
    cases h
    rcases of_roleInput_eq_none hinput with hticks | ⟨-, hpending, -⟩
    · simpa [hticks] using haged
    · exact fun _ => hpending
  | some i =>
    rw [hinput] at h
    obtain ⟨⟨learner, d⟩, hact, hret⟩ := Checked.bind_eq_ok_iff.mp h
    cases hret
    cases Learner.asking_of_act hact with
    | asks _ _ _ catchingUp_eq => exact fun _ => catchingUp_eq
    | quiet _ catchingUp_eq =>
      rw [catchingUp_eq]
      simp only [Bool.and_eq_true]
      exact fun ⟨haged', hkeeps⟩ => ⟨haged haged', hkeeps⟩

/-- **What an event does to the age of a request.** -/
theorem ages_of_handle (haged : s.aged = true → s.learner.catchingUp = true)
    (h : s.handle x = .ok (s', effects)) : s.Ages x s' effects := by
  rw [handle_eq] at h
  cases hinput : s.roleInput x with
  | none =>
    rw [hinput] at h
    cases h
    exact ages_of_wait hinput
  | some i =>
    rw [hinput] at h
    obtain ⟨⟨learner, d⟩, hact, hret⟩ := Checked.bind_eq_ok_iff.mp h
    cases hret
    exact ages_of_act haged hinput hact

/-! ### Runs -/

theorem id_of_handle (h : s.handle x = .ok (s', effects)) : s'.learner.id = s.learner.id := by
  rw [handle_eq] at h
  split at h
  · cases h
    rfl
  · obtain ⟨⟨learner, d⟩, hact, hret⟩ := Checked.bind_eq_ok_iff.mp h
    cases hret
    exact (Learner.author_of_act hact).1

theorem sound_of_runs (h : Runs handle (start c) s past) :
    s.learner.id = c.replica ∧ (s.aged = true → s.learner.catchingUp = true) := by
  induction h with
  | nil => exact ⟨rfl, by simp [start]⟩
  | step _ act_eq ih =>
    exact ⟨(id_of_handle act_eq).trans ih.1, aged_of_handle ih.2 act_eq⟩

/-- As long as no answer comes, only ticks make a request older; if no other one is sent, all of them do. -/
theorem age_of_runs (haged : s.aged = true → s.learner.catchingUp = true)
    (h : Runs handle s s' later) (hlater : ∀ t ∈ later, ¬ t.input.IsAnswer) :
    (s'.aged = true → s'.learner.catchingUp = true) ∧ s'.age ≤ s.age + ticks later ∧
      ((∀ t ∈ later, requests t.output = []) → s'.age = min 2 (s.age + ticks later)) := by
  induction h with
  | nil => exact ⟨haged, le_rfl, fun _ => (Nat.min_eq_right s.age_le).symm⟩
  | @step s₁ s' x effects ts _ act_eq ih =>
    obtain ⟨hbefore, hlast⟩ := List.forall_mem_append.mp hlater
    obtain ⟨haged₁, hle, heq⟩ := ih hbefore
    have hages := ages_of_handle haged₁ act_eq
    rw [ticks_append, ticks_singleton]
    dsimp only
    refine ⟨aged_of_handle haged₁ act_eq, ?_, fun hsilent => ?_⟩
    · cases hages with
      | asks _ _ _ age_eq => omega
      | answered _ isAnswer => exact absurd isAnswer (hlast _ List.mem_cons_self)
      | waits _ age_eq => omega
    · obtain ⟨hbefore', hlast'⟩ := List.forall_mem_append.mp hsilent
      have heq := heq hbefore'
      cases hages with
      | asks requests_eq => cases requests_eq.symm.trans (hlast' _ List.mem_cons_self)
      | answered _ isAnswer => exact absurd isAnswer (hlast _ List.mem_cons_self)
      | waits _ age_eq => omega

/-- A running learner is its role: what happens to it is a run of the role, about the same slots. -/
theorem exists_role_run {b : Nat} (h : Runs handle (start c) s past)
    (hpast : ∀ t ∈ past, t.input.Within b) : ∃ past' : Learner.Past,
      Runs Learner.act (Replica.ofSettings c).learner s.learner past' ∧
        ∀ t ∈ past', t.input.Within b := by
  induction h with
  | nil => exact ⟨[], .nil, by simp⟩
  | @step s s' x effects ts _ act_eq ih =>
    obtain ⟨hbefore, hlast⟩ := List.forall_mem_append.mp hpast
    obtain ⟨past', hrun, hpast'⟩ := ih hbefore
    rw [handle_eq] at act_eq
    cases hinput : s.roleInput x with
    | none =>
      rw [hinput] at act_eq
      cases act_eq
      exact ⟨past', hrun, hpast'⟩
    | some i =>
      rw [hinput] at act_eq
      obtain ⟨⟨learner, d⟩, hact, hret⟩ := Checked.bind_eq_ok_iff.mp act_eq
      cases hret
      have hwithin := within_of_roleInput hinput (hlast _ List.mem_cons_self)
      exact ⟨_, hrun.step hact, List.forall_mem_append.mpr ⟨hpast', by simpa using hwithin⟩⟩

/-- A running learner does not fail, as long as what happens to it is about slots below `2 ^ 63`. -/
theorem exists_handle (h : Runs handle (start c) s past)
    (hpast : ∀ t ∈ past, t.input.Within (2 ^ 63)) (hx : x.Within (2 ^ 63)) :
    ∃ s' effects, s.handle x = .ok (s', effects) := by
  obtain ⟨past', hrun, hpast'⟩ := exists_role_run h hpast
  rw [handle_eq]
  cases hinput : s.roleInput x with
  | none => exact ⟨_, _, rfl⟩
  | some i =>
    have hstop := Learner.stop_le_of_runs hrun (by decide) hpast'
    have hnext := (Learner.retains_of_runs hrun).next_le_stop.trans hstop
    obtain ⟨learner, d, hact⟩ :=
      Learner.exists_act (by decide) hnext hstop (within_of_roleInput hinput hx)
    exact ⟨_, _, Checked.bind_eq_ok_iff.mpr ⟨_, hact, rfl⟩⟩

/-- A request is sent to the replica that is trusted, for what is missing. -/
theorem aimed_of_handle (hid : s.learner.id = c.replica)
    (haged : s.aged = true → s.learner.catchingUp = true) (h : s.handle x = .ok (s', effects)) :
    requests effects = [] ∨ ∃ leader ranges,
      requests effects = [.unicast leader (.catchUpRequest ⟨c.replica, ranges⟩)] ∧
        s'.learner.leader = some leader ∧ leader ≠ c.replica ∧
        s'.learner.missing = .ok ranges ∧ ranges ≠ [] := by
  cases ages_of_handle haged h with
  | @asks o requests_eq aims =>
    obtain ⟨leader, ranges, rfl, hleader, hother, hmissing, hsome⟩ := aims
    rw [(id_of_handle h).trans hid] at requests_eq hother
    exact Or.inr ⟨leader, ranges, requests_eq, hleader, hother, hmissing, hsome⟩
  | answered requests_eq => exact Or.inl requests_eq
  | waits requests_eq => exact Or.inl requests_eq

/-- From one request to another there are two ticks, unless an answer comes. -/
theorem two_le_ticks_of_runs {before mid : Past} {t t' : Turn LearnerService LearnerEvent (List Effect)}
    (h : Runs handle (start c) s (before ++ t :: mid ++ t' :: later))
    (hasks : requests t.output ≠ []) (hasks' : requests t'.output ≠ [])
    (hmid : ∀ u ∈ mid, ¬ u.input.IsAnswer) : 2 ≤ ticks (mid ++ [t']) := by
  obtain ⟨hrun', hact'⟩ := h.split
  obtain ⟨hrun, hact⟩ := hrun'.split
  have haged := (sound_of_runs hrun).2
  have hnew := ((ages_of_handle haged hact).of_ne_nil hasks).2
  have hold := ((ages_of_handle (sound_of_runs hrun').2 hact').of_ne_nil hasks').1
  obtain ⟨-, hle, -⟩ := age_of_runs (aged_of_handle haged hact) hrun'.rest hmid
  rw [ticks_append, ticks_singleton]
  omega

/-- **Requests for missing slots are aimed and paced**, whatever happens to a running learner. A step sends
no such request, or one: to the replica that the learner trusts, which is another one, for exactly what it
misses, which is something. From a step with a request to a later one there are at least two ticks, which may
include that later step, unless an answer comes in between. After two ticks without an answer either
another request has been sent or none is awaited. And as long as everything is about slots below `2 ^ 63`,
the learner takes the next event, whatever it is; the count of the slots that an answer fills, which is for
people and not kept (`Learner.takeAnswer`), is set aside. -/
theorem paced_requests (h : Runs handle (start c) s past) :
    (∀ t ∈ past, requests t.output = [] ∨ ∃ leader ranges,
      requests t.output = [.unicast leader (.catchUpRequest ⟨c.replica, ranges⟩)] ∧
        t.after.learner.leader = some leader ∧ leader ≠ c.replica ∧
        t.after.learner.missing = .ok ranges ∧ ranges ≠ []) ∧
    (∀ before t mid t' later, past = before ++ t :: mid ++ t' :: later →
      requests t.output ≠ [] → requests t'.output ≠ [] → (∀ u ∈ mid, ¬ u.input.IsAnswer) →
        2 ≤ ticks (mid ++ [t'])) ∧
    (∀ s' later, Runs handle s s' later → (∀ t ∈ later, ¬ t.input.IsAnswer) → 2 ≤ ticks later →
      (∃ t ∈ later, requests t.output ≠ []) ∨ s'.learner.catchingUp = false) ∧
    ((∀ t ∈ past, t.input.Within (2 ^ 63)) → ∀ x : LearnerEvent, x.Within (2 ^ 63) →
      ∃ s' effects, s.handle x = .ok (s', effects)) := by
  refine ⟨fun t ht => ?_, ?_, fun s' later hlater hanswers htwo => ?_, fun hpast x =>
    exists_handle h hpast⟩
  · obtain ⟨before, later, rfl⟩ := List.append_of_mem ht
    obtain ⟨hrun, hact⟩ := h.split
    obtain ⟨hid, haged⟩ := sound_of_runs hrun
    exact aimed_of_handle hid haged hact
  · rintro before t mid t' later rfl hasks hasks' hmid
    exact two_le_ticks_of_runs h hasks hasks' hmid
  · by_cases hasks : ∃ t ∈ later, requests t.output ≠ []
    · exact Or.inl hasks
    · obtain ⟨-, -, heq⟩ := age_of_runs (sound_of_runs h).2 hlater hanswers
      have hage : s'.age = min 2 (s.age + ticks later) :=
        heq fun t ht => by_contra fun hne => hasks ⟨t, ht, hne⟩
      exact Or.inr (catchingUp_of_two_le_age (by omega))

/-- The learner trusts replica 1 and learns slot 3, so it asks for slots 1 and 2. After two ticks it asks
replica 2, which it trusts by then. After two more ticks it asks nobody, since it trusts itself by then, and
awaits no answer. -/
theorem paced_requests_of_third_leader : ∃ s before t mid t' s' later,
    Runs handle (start {}) s (before ++ t :: mid ++ [t']) ∧ Runs handle s s' later ∧
    requests t.output = [.unicast 1 (.catchUpRequest ⟨0, [(1, 2)]⟩)] ∧
    requests t'.output = [.unicast 2 (.catchUpRequest ⟨0, [(1, 2)]⟩)] ∧
    t'.after.learner.leader = some 2 ∧ t'.after.learner.missing = .ok [(1, 2)] ∧
    2 ≤ ticks (mid ++ [t']) ∧ ticks later = 2 ∧ s'.learner.catchingUp = false ∧
    ∃ s'' effects, s'.handle (.message (.catchUpResponse ⟨2, [(2, .noop)]⟩)) = .ok (s'', effects) := by
  let vote (sender slot : Nat) : LearnerEvent :=
    .message (.learn ⟨sender, slot, ⟨1, 1⟩, .appBatch [65], .zeros 3⟩)
  obtain ⟨s', past, h, hasks, hasks', hmid, hlater, htwo, hwithin⟩ := Runs.exists_of_replay handle
    (start {}) [.trust 1, vote 1 3, vote 2 3, .tick, .trust 2, .tick, .trust 0, .tick, .tick]
    (fun _ past =>
      past[2]?.map (fun t => requests t.output) = some [.unicast 1 (.catchUpRequest ⟨0, [(1, 2)]⟩)] ∧
      (past.drop 3)[2]?.map (fun t => requests t.output) =
        some [.unicast 2 (.catchUpRequest ⟨0, [(1, 2)]⟩)] ∧
      (∀ u ∈ (past.drop 3).take 2, ¬ u.input.IsAnswer) ∧
      (∀ u ∈ (past.drop 3).drop 3, ¬ u.input.IsAnswer ∧ requests u.output = []) ∧
      ticks ((past.drop 3).drop 3) = 2 ∧ ∀ t ∈ past, t.input.Within (2 ^ 63)) (by decide +kernel)
  obtain ⟨t, ht, hasks⟩ := Option.map_eq_some_iff.mp hasks
  obtain ⟨t', ht', hasks'⟩ := Option.map_eq_some_iff.mp hasks'
  obtain ⟨-, -, -, htakes⟩ := paced_requests h
  obtain ⟨s'', effects, hhandle⟩ := htakes hwithin (.message (.catchUpResponse ⟨2, [(2, .noop)]⟩)) (by decide)
  have hsplit : past = past.take 2 ++ t :: (past.drop 3).take 2 ++ t' :: (past.drop 3).drop 3 := by
    conv_lhs => rw [eq_take_append_cons_drop ht, eq_take_append_cons_drop ht']
    rw [List.append_assoc, List.cons_append]
  rw [hsplit] at h
  obtain ⟨haimed, hpaced, -⟩ := paced_requests h
  obtain ⟨leader, ranges, hrequest, hleader, -, hmissing, -⟩ :=
    (haimed t' (by simp)).resolve_left (by simp [hasks'])
  obtain ⟨rfl, rfl⟩ : 2 = leader ∧ [(1, 2)] = ranges := by simpa [hasks'] using hrequest
  have hticks := hpaced _ t _ t' _ rfl (by simp [hasks]) (by simp [hasks']) hmid
  obtain ⟨-, -, hends, -⟩ := paced_requests (h.split.1.step h.split.2)
  have hidle := hends s' _ h.rest (fun u hu => (hlater u hu).1) htwo.ge
  exact ⟨t'.after, past.take 2, t, (past.drop 3).take 2, t', s', (past.drop 3).drop 3,
    h.split.1.step h.split.2, h.rest, hasks, hasks', hleader, hmissing, hticks, htwo,
    hidle.resolve_left (fun ⟨u, hu, hne⟩ => hne (hlater u hu).2), s'', effects, hhandle⟩

end LearnerService

end ReplicatedLog
