import ReplicatedLog.Proofs.Pipeline
import ReplicatedLog.Proofs.SingleLeader

/-!
# Calm runs

A run is calm if nothing goes wrong in it: all replicas have the same view of the membership from the
start, all trust the same leader, no timer fires, and every message that is sent arrives once at each
replica that it is for. The order in which messages arrive is not restricted; neither is when values
are submitted and when proposers hear of deliveries.

* `World.Next` — what may happen next, given the messages in flight.
* `CalmRun c leader epochs w flight` — a calm run leads to the world `w`, with `flight` under way.
* `CalmRun.reachable` — a calm run is a run as any other, so what holds of those holds of it.
* `CalmRun.views` — the views of the membership stay the same.
* `CalmRun.covered` — a message that is no longer in flight has had its effect, if effects last.
* `CalmRun.replay` — runs a list of events, to exhibit calm runs.
-/

namespace ReplicatedLog

open Function

/-- The event gives a role its view of the membership. -/
def Event.SetsView : Event → Prop
  | .acceptor _ (.setEpochs _) => True
  | .proposer _ (.setEpochs _) => True
  | .learner _ (.setEpochs _) => True
  | _ => False

/-- What happens in a calm run without a message: a replica is told to trust the leader, a client
submits a value, or a proposer hears what its learner has delivered. -/
def Event.Calm (leader : Nat) : Event → Prop
  | .proposer _ (.trust j) => j = leader
  | .proposer _ (.submit _) => True
  | .learner _ (.trust j) => j = leader
  | .handOver _ => True
  | _ => False

/-- A message arrives at a replica. -/
def Event.arrival (i : Nat) : Message → Event
  | .prepare m => .acceptor i (.prepare m)
  | .promise m => .proposer i (.promise m)
  | .accept m => .acceptor i (.accept m)
  | .learn m => .learner i (.learn m)
  | .catchUpRequest m => .learner i (.request m)
  | .catchUpResponse m => .learner i (.response m)

instance (e : Event) : Decidable e.SetsView := by
  unfold Event.SetsView
  split <;> infer_instance

instance (leader : Nat) (e : Event) : Decidable (e.Calm leader) :=
  match e with
  | .proposer _ (.trust j) => inferInstanceAs (Decidable (j = leader))
  | .learner _ (.trust j) => inferInstanceAs (Decidable (j = leader))
  | .proposer _ (.submit _) | .handOver _ => inferInstanceAs (Decidable True)
  | .acceptor _ _ | .snapshot _ _ | .proposer _ (.promise _) | .proposer _ (.hear _)
  | .proposer _ (.noteDelivered _ _) | .proposer _ .retry | .proposer _ .checkProgress
  | .proposer _ (.setEpochs _) | .learner _ (.learn _) | .learner _ (.request _)
  | .learner _ (.response _) | .learner _ .askAgain | .learner _ (.setEpochs _) =>
    inferInstanceAs (Decidable False)

/-- The copies of what is sent, one for each of `n` replicas that it is for. -/
def Outgoing.copies (n : Nat) (o : Outgoing) : List (Nat × Message) :=
  ((List.range n).filter fun i => o.IsFor i).map fun i => (i, o.message)

theorem Outgoing.mem_copies {n i : Nat} {m : Message} {o : Outgoing} :
    (i, m) ∈ o.copies n ↔ i < n ∧ o.IsFor i ∧ o.message = m := by
  simp only [copies, List.mem_map, List.mem_filter, List.mem_range, decide_eq_true_eq,
    Prod.mk.injEq]
  constructor
  · rintro ⟨j, ⟨hj, hfor⟩, rfl, rfl⟩
    exact ⟨hj, hfor, rfl⟩
  · rintro ⟨hi, hfor, rfl⟩
    exact ⟨i, ⟨hi, hfor⟩, rfl, rfl⟩

namespace World

/-- Every role of every replica has the same view of the membership. -/
def Views (n : Nat) (epochs : EpochVector) (w : World) : Prop :=
  ∀ i < n, (w.acceptors i).epochs = epochs ∧ (w.proposers i).epochs = epochs ∧
    (w.learners i).epochs = epochs

/-- What may happen next in a calm run, and which of the messages in flight stay there. -/
inductive Next (n leader : Nat) (w : World) (flight : List (Nat × Message)) :
    Event → List (Nat × Message) → Prop
  /-- Something happens without a message. -/
  | happens {e : Event} : e.Calm leader → w.Allowed n e → Next n leader w flight e flight
  /-- A message arrives. -/
  | arrives {i : Nat} {m : Message} : (i, m) ∈ flight →
      Next n leader w flight (.arrival i m) (flight.erase (i, m))

/-- The messages that are under way in `w'` because they were sent since `w`. -/
def launched (n : Nat) (w w' : World) : List (Nat × Message) :=
  (w'.sent.drop w.sent.length).flatMap (Outgoing.copies n)

end World

/-- The worlds that calm runs lead to, each with the messages in flight. -/
inductive CalmRun (c : ReplicaSettings) (leader : Nat) (epochs : EpochVector) :
    World → List (Nat × Message) → Prop
  /-- All roles have got the same view of the membership, and nothing else has happened. -/
  | start {w : World} : Reachable c (fun _ e => e.SetsView) w → w.Views c.replicas epochs →
      CalmRun c leader epochs w []
  /-- One more event. -/
  | step {w w' : World} {flight rest : List (Nat × Message)} {e : Event} :
      CalmRun c leader epochs w flight → w.Next c.replicas leader flight e rest →
      w.step e = .ok w' → CalmRun c leader epochs w' (rest ++ World.launched c.replicas w w')

/-- The event gives a role its view of the membership, or it happens in a calm run. -/
def Calmly (c : ReplicaSettings) (leader : Nat) (epochs : EpochVector) (w : World) (e : Event) :
    Prop :=
  e.SetsView ∨ ∃ flight rest, CalmRun c leader epochs w flight ∧
    w.Next c.replicas leader flight e rest

variable {c : ReplicaSettings} {leader : Nat} {epochs : EpochVector} {w w' : World} {e : Event}
  {flight rest : List (Nat × Message)}

/-! ### What is in flight -/

namespace World

theorem mem_launched (hstep : w.Steps e w') {n i : Nat} {m : Message} :
    (i, m) ∈ launched n w w' ↔
      i < n ∧ ∃ out, w'.sent = w.sent ++ out ∧ ∃ o ∈ out, o.message = m ∧ o.IsFor i := by
  obtain ⟨out, hout⟩ := hstep.exists_sent
  unfold launched
  rw [hout, List.drop_left, List.mem_flatMap]
  constructor
  · rintro ⟨o, ho, hmem⟩
    obtain ⟨hi, hfor, hm⟩ := Outgoing.mem_copies.mp hmem
    exact ⟨hi, out, rfl, o, ho, hm, hfor⟩
  · rintro ⟨hi, out', hout', o, ho, hm, hfor⟩
    rw [← List.append_cancel_left hout'] at ho
    exact ⟨o, ho, Outgoing.mem_copies.mpr ⟨hi, hfor, hm⟩⟩

theorem Arrives.step {i : Nat} {m : Message} (h : w.Arrives i m) (hstep : w.Steps e w') :
    w'.Arrives i m := by
  obtain ⟨out, hout⟩ := hstep.exists_sent
  obtain ⟨o, ho, hm⟩ := h
  exact ⟨o, hout ▸ List.mem_append_left out ho, hm⟩

/-- What stays in flight was in flight. -/
theorem Next.subset {n : Nat} (h : w.Next n leader flight e rest) : rest ⊆ flight := by
  cases h with
  | happens => exact List.Subset.refl flight
  | arrives => exact List.erase_subset

/-- A message that was sent arrives at replicas of the cluster only. -/
theorem allowed_arrival {n i : Nat} {m : Message} (hi : i < n) (h : w.Arrives i m) :
    w.Allowed n (.arrival i m) := by
  cases m <;> exact ⟨hi, h⟩

end World

/-- While views of the membership are given, nothing else happens. -/
theorem Reachable.untouched (h : Reachable c (fun _ e => e.SetsView) w) :
    w.sent = [] ∧ ∀ i, w.waiting i = [] ∧ w.submitted i = [] ∧
      w.proposers i = ((World.start c).proposers i).setEpochs (w.proposers i).epochs := by
  induction h with
  | start => exact ⟨rfl, fun i => ⟨rfl, rfl, rfl⟩⟩
  | @step w w' e _ hsets _ hstep ih =>
    obtain ⟨hsent, hroles⟩ := ih
    cases World.steps_of_step hstep with
    | @acceptor j x a out act =>
      cases x with
      | setEpochs =>
        cases act
        exact ⟨by simp [hsent], hroles⟩
      | _ => exact hsets.elim
    | snapshot => exact hsets.elim
    | @proposer j x p out act =>
      cases x with
      | setEpochs =>
        cases act
        refine ⟨by simp [hsent], fun i => ⟨(hroles i).1, ?_, ?_⟩⟩
        · by_cases hi : i = j
          · subst hi
            simp [hroles i]
          · simp [update_of_ne hi, hroles i]
        · by_cases hi : i = j
          · subst hi
            simp only [update_self]
            rw [(hroles i).2.2]
            rfl
          · simp only [update_of_ne hi]
            exact (hroles i).2.2
      | _ => exact hsets.elim
    | nothing => exact hsets.elim
    | handOver => exact hsets.elim
    | @learner j x l d act =>
      cases x with
      | setEpochs =>
        cases act
        refine ⟨by simp [hsent], fun i => ⟨?_, (hroles i).2⟩⟩
        by_cases hi : i = j
        · subst hi
          simp [hroles i, World.handOvers]
        · simp [update_of_ne hi, hroles i]
      | _ => exact hsets.elim

namespace CalmRun

/-- What is in flight was sent, to a replica of the cluster. -/
theorem arrives (h : CalmRun c leader epochs w flight) {i : Nat} {m : Message}
    (hmem : (i, m) ∈ flight) : i < c.replicas ∧ w.Arrives i m := by
  induction h with
  | start => exact (List.not_mem_nil hmem).elim
  | @step w w' flight rest e _ hnext hstep ih =>
    have hsteps := World.steps_of_step hstep
    rcases List.mem_append.mp hmem with hmem | hmem
    · exact (ih (hnext.subset hmem)).imp_right (·.step hsteps)
    · obtain ⟨hi, out, hout, o, ho, hm⟩ := (World.mem_launched hsteps).mp hmem
      exact ⟨hi, o, hout ▸ List.mem_append_right _ ho, hm⟩

theorem allowed (h : CalmRun c leader epochs w flight)
    (hnext : w.Next c.replicas leader flight e rest) : w.Allowed c.replicas e := by
  cases hnext with
  | happens _ hallowed => exact hallowed
  | arrives hmem =>
    obtain ⟨hi, harrives⟩ := h.arrives hmem
    exact World.allowed_arrival hi harrives

/-! ### Calm runs as runs -/

/-- A calm run is a run. -/
theorem reachable (h : CalmRun c leader epochs w flight) :
    Reachable c (Calmly c leader epochs) w := by
  induction h with
  | start hw => exact hw.mono fun _ _ => Or.inl
  | step hw hnext hstep ih => exact ih.step (Or.inr ⟨_, _, hw, hnext⟩) (hw.allowed hnext) hstep

end CalmRun

/-- In a calm run no votes are handed over and no slots given up on demand, and nobody but the leader is
told to lead. -/
theorem World.Next.ordinary_ledBy {n : Nat} (h : w.Next n leader flight e rest) :
    e.Ordinary ∧ e.LedBy leader := by
  cases h with
  | happens hcalm =>
    unfold Event.Calm at hcalm
    split at hcalm
    · exact ⟨trivial, fun hi => hi.trans hcalm⟩
    · exact ⟨trivial, trivial⟩
    · exact ⟨trivial, trivial⟩
    · exact ⟨trivial, trivial⟩
    · exact hcalm.elim
  | @arrives i m => cases m <;> exact ⟨trivial, trivial⟩

theorem Calmly.ordinary_ledBy (h : Calmly c leader epochs w e) : e.Ordinary ∧ e.LedBy leader := by
  rcases h with hsets | ⟨flight, rest, -, hnext⟩
  · unfold Event.SetsView at hsets
    split at hsets <;> first | exact hsets.elim | exact ⟨trivial, trivial⟩
  · exact hnext.ordinary_ledBy

namespace CalmRun

theorem ordinary (h : CalmRun c leader epochs w flight) :
    Reachable c (fun _ e => e.Ordinary) w :=
  h.reachable.mono fun _ _ he => he.ordinary_ledBy.1

theorem led (h : CalmRun c leader epochs w flight) :
    Reachable c (fun _ e => e.LedBy leader) w :=
  h.reachable.mono fun _ _ he => he.ordinary_ledBy.2

end CalmRun

/-! ### What does not change -/

/-- Views of the membership stay as they are while no new ones are given. -/
theorem World.Views.step {n : Nat} (h : w.Views n epochs) (hstep : w.Steps e w')
    (he : ¬ e.SetsView) : w'.Views n epochs := by
  cases hstep with
  | @acceptor j x a out act =>
    refine (forall_update_iff w.acceptors fun i a => i < n → a.epochs = epochs ∧ _).mpr
      ⟨fun hj => ⟨?_, (h j hj).2⟩, fun i _ => h i⟩
    rcases (Acceptor.view_of_act act).2 with heq | rfl
    · exact heq.trans (h j hj).1
    · exact absurd trivial he
  | snapshot => exact h
  | @proposer j x p out act =>
    refine (forall_update_iff w.proposers fun i p => i < n → _ ∧ p.epochs = epochs ∧ _).mpr
      ⟨fun hj => ⟨(h j hj).1, ?_, (h j hj).2.2⟩, fun i _ => h i⟩
    rcases (Proposer.setUp_of_act act).2.1 with heq | rfl
    · exact heq.trans (h j hj).2.1
    · exact absurd trivial he
  | nothing => exact h
  | @handOver j note rest p out waiting_eq act =>
    refine (forall_update_iff w.proposers fun i p => i < n → _ ∧ p.epochs = epochs ∧ _).mpr
      ⟨fun hj => ⟨(h j hj).1, ?_, (h j hj).2.2⟩, fun i _ => h i⟩
    rcases (Proposer.setUp_of_act act).2.1 with heq | heq
    · exact heq.trans (h j hj).2.1
    · cases heq
  | @learner j x l d act =>
    refine (forall_update_iff w.learners fun i l => i < n → _ ∧ _ ∧ l.epochs = epochs).mpr
      ⟨fun hj => ⟨(h j hj).1, (h j hj).2.1, ?_⟩, fun i _ => h i⟩
    rcases (Learner.view_of_act act).2.2 with heq | rfl
    · exact heq.trans (h j hj).2.2
    · exact absurd trivial he

/-- In a calm run nobody gets a new view of the membership. -/
theorem World.Next.not_setsView {n : Nat} (h : w.Next n leader flight e rest) : ¬ e.SetsView := by
  cases h with
  | happens hcalm =>
    unfold Event.Calm at hcalm
    split at hcalm <;> first | exact hcalm.elim | exact id
  | @arrives i m => cases m <;> exact id

namespace CalmRun

/-- **All views stay the same** in a calm run. -/
theorem views (h : CalmRun c leader epochs w flight) : w.Views c.replicas epochs := by
  induction h with
  | start _ hviews => exact hviews
  | step _ hnext hstep ih => exact ih.step (World.steps_of_step hstep) hnext.not_setsView

/-! ### Effects of messages -/

/-- **A message that was sent is in flight or has had its effect**, if a message has its effect when it
arrives, and effects last. -/
theorem covered {Effect : World → Nat → Message → Prop}
    (arrived : ∀ {w w' flight i m}, CalmRun c leader epochs w flight → (i, m) ∈ flight →
      w.step (.arrival i m) = .ok w' → Effect w' i m)
    (lasts : ∀ {w w' flight rest e i m}, CalmRun c leader epochs w flight →
      w.Next c.replicas leader flight e rest → w.step e = .ok w' → w.Arrives i m → Effect w i m →
      Effect w' i m)
    (h : CalmRun c leader epochs w flight) {i : Nat} {m : Message} (hi : i < c.replicas)
    (harrives : w.Arrives i m) : (i, m) ∈ flight ∨ Effect w i m := by
  induction h with
  | start hw =>
    obtain ⟨o, ho, -⟩ := harrives
    rw [hw.untouched.1] at ho
    exact (List.not_mem_nil ho).elim
  | @step w w' flight rest e hw hnext hstep ih =>
    have hsteps := World.steps_of_step hstep
    obtain ⟨out, hout⟩ := hsteps.exists_sent
    obtain ⟨o, ho, hm⟩ := harrives
    rw [hout] at ho
    rcases List.mem_append.mp ho with hold | hnew
    · have hbefore : w.Arrives i m := ⟨o, hold, hm⟩
      rcases ih hbefore with hflight | heffect
      · cases hnext with
        | happens => exact Or.inl (List.mem_append_left _ hflight)
        | @arrives j m' hmem =>
          -- it is the one that arrives, or it stays in flight
          by_cases heq : (i, m) = (j, m')
          · cases heq
            exact Or.inr (arrived hw hmem hstep)
          · exact Or.inl (List.mem_append_left _ ((List.mem_erase_of_ne heq).mpr hflight))
      · exact Or.inr (lasts hw hnext hstep hbefore heffect)
    · refine Or.inl (List.mem_append_right _ ?_)
      exact (World.mem_launched hsteps).mpr ⟨hi, out, hout, o, hnew, hm⟩

/-! ### Replaying runs -/

/-- The messages that stay in flight if an event is next, if it may be. -/
def left? (n leader : Nat) (w : World) (flight : List (Nat × Message)) (e : Event) :
    Option (List (Nat × Message)) :=
  if e.Calm leader ∧ w.Allowed n e then some flight
  else (flight.find? fun d => decide (.arrival d.1 d.2 = e)).map flight.erase

theorem next_of_left?_eq_some {n : Nat} (h : left? n leader w flight e = some rest) :
    w.Next n leader flight e rest := by
  unfold left? at h
  split at h
  · rename_i hmay
    cases h
    exact .happens hmay.1 hmay.2
  · obtain ⟨⟨i, m⟩, hfind, rfl⟩ := Option.map_eq_some_iff.mp h
    have heq : Event.arrival i m = e := by simpa using List.find?_some hfind
    subst heq
    exact .arrives (List.mem_of_find?_eq_some hfind)

/-- The world after a list of events and what is in flight then, if the run is calm. -/
def replay (c : ReplicaSettings) (leader : Nat) :
    World → List (Nat × Message) → List Event → Option (World × List (Nat × Message))
  | w, flight, [] => some (w, flight)
  | w, flight, e :: es =>
    match left? c.replicas leader w flight e, w.step e with
    | some rest, .ok w' => replay c leader w' (rest ++ World.launched c.replicas w w') es
    | _, _ => none

theorem of_replay {es : List Event} {flight' : List (Nat × Message)}
    (hw : CalmRun c leader epochs w flight)
    (h : replay c leader w flight es = some (w', flight')) : CalmRun c leader epochs w' flight' := by
  induction es generalizing w flight with
  | nil =>
    cases h
    exact hw
  | cons e es ih =>
    unfold replay at h
    split at h
    · rename_i rest w₁ hleft hstep
      exact ih (hw.step (next_of_left?_eq_some hleft) hstep) h
    · cases h

/-- A calm run that a replay shows, from the views that replicas start with. -/
theorem exists_of_replay (c : ReplicaSettings) (leader : Nat) (es : List Event) (P : World → Prop)
    [DecidablePred P] (h : (replay c leader (World.start c) [] es).any
      (fun r => decide (r.2 = [] ∧ P r.1)) = true) :
    ∃ w, CalmRun c leader (.zeros c.replicas) w [] ∧ P w := by
  cases hreplay : replay c leader (World.start c) [] es with
  | none =>
    rw [hreplay] at h
    cases h
  | some r =>
    rw [hreplay] at h
    obtain ⟨hflight, hP⟩ := of_decide_eq_true h
    have hstart : CalmRun c leader (.zeros c.replicas) (World.start c) [] :=
      .start .start fun i _ => ⟨rfl, rfl, rfl⟩
    exact ⟨r.1, hflight ▸ of_replay hstart hreplay, hP⟩

end CalmRun

end ReplicatedLog
