import Mathlib.Data.List.Induction
import ReplicatedLog.Replica

/-!
# Inputs of the roles

Everything that can happen to an acceptor, a proposer or a learner, as one type of inputs for each
role, and one step for each role that takes an input and tells what the role sends. The steps do
what the functions of the roles do and nothing else; they give runs of a role, and runs of a whole
cluster, one relation to speak of.

A run of a role is the state that it leads to together with its steps in order (`Runs`), so that what
was sent earlier can be spoken of.

Each message names its author: the role that says it and the replica that this role belongs to. What
a role sends is said in its own name, so what others send cannot be mistaken for it.
-/

namespace ReplicatedLog

/-- The parts that a replica plays. -/
inductive Role where
  /-- It votes. -/
  | acceptor
  /-- It leads. -/
  | proposer
  /-- It delivers. -/
  | learner
  deriving DecidableEq, Repr

/-- The role that says a message, and the replica that it belongs to. -/
def Message.author : Message → Role × Nat
  | .prepare m => (.proposer, m.sender)
  | .promise m => (.acceptor, m.sender)
  | .accept m => (.proposer, m.sender)
  | .learn m => (.acceptor, m.sender)
  | .catchUpRequest m => (.learner, m.sender)
  | .catchUpResponse m => (.learner, m.sender)

namespace Outgoing

/-- What is said. -/
def message : Outgoing → Message
  | .unicast _ m => m
  | .broadcast m => m

/-- Whether a replica is among those that are told. -/
def IsFor (i : Nat) : Outgoing → Prop
  | .unicast target _ => target = i
  | .broadcast _ => True

instance (i : Nat) (o : Outgoing) : Decidable (o.IsFor i) :=
  match o with
  | .unicast target _ => inferInstanceAs (Decidable (target = i))
  | .broadcast _ => inferInstanceAs (Decidable True)

/-- Who says it. -/
def author (o : Outgoing) : Role × Nat := o.message.author

end Outgoing

/-- A message was sent. -/
def Said (sent : List Outgoing) (m : Message) : Prop := ∃ o ∈ sent, o.message = m

instance (sent : List Outgoing) (m : Message) : Decidable (Said sent m) :=
  inferInstanceAs (Decidable (∃ o ∈ sent, o.message = m))

theorem said_append {sent out : List Outgoing} {m : Message} :
    Said (sent ++ out) m ↔ Said sent m ∨ Said out m := by
  simp only [Said, List.mem_append, or_and_right, exists_or]

theorem Said.append {sent : List Outgoing} {m : Message} (h : Said sent m)
    (out : List Outgoing) : Said (sent ++ out) m := said_append.mpr (Or.inl h)

@[simp]
theorem said_singleton {o : Outgoing} {m : Message} : Said [o] m ↔ o.message = m := by
  simp [Said]

@[simp]
theorem not_said_nil {m : Message} : ¬ Said [] m := by
  simp [Said]

/-- What others say is not what a role has said. -/
theorem said_of_author_ne {sent out : List Outgoing} {m : Message}
    (hout : ∀ o ∈ out, o.author ≠ m.author) (h : Said (sent ++ out) m) : Said sent m := by
  rcases said_append.mp h with h | ⟨o, ho, heq⟩
  · exact h
  · exact absurd (congrArg Message.author heq) (hout o ho)

/-- The vote that a message is, if it is one. -/
def Message.learn? : Message → Option Learn
  | .learn m => some m
  | _ => none

/-- The request for promises that a message is, if it is one. -/
def Message.prepare? : Message → Option Prepare
  | .prepare m => some m
  | _ => none

/-- The proposal that a message is, if it is one. -/
def Message.accept? : Message → Option Accept
  | .accept m => some m
  | _ => none

theorem Message.learn?_eq_some {m : Message} {l : Learn} :
    m.learn? = some l ↔ m = .learn l := by
  cases m <;> simp [learn?]

theorem Message.accept?_eq_some {m : Message} {a : Accept} :
    m.accept? = some a ↔ m = .accept a := by
  cases m <;> simp [accept?]

theorem Message.prepare?_eq_some {m : Message} {q : Prepare} :
    m.prepare? = some q ↔ m = .prepare q := by
  cases m <;> simp [prepare?]

/-- The messages of a kind among those that were sent, in order. -/
def select {α : Type} (f : Message → Option α) (sent : List Outgoing) : List α :=
  sent.filterMap fun o => f o.message

theorem mem_select {α : Type} {f : Message → Option α} {sent : List Outgoing} {a : α} :
    a ∈ select f sent ↔ ∃ m, Said sent m ∧ f m = some a := by
  simp only [select, Said, List.mem_filterMap]
  constructor
  · rintro ⟨o, ho, ha⟩
    exact ⟨o.message, ⟨o, ho, rfl⟩, ha⟩
  · rintro ⟨_, ⟨o, ho, rfl⟩, ha⟩
    exact ⟨o, ho, ha⟩

@[simp]
theorem select_nil {α : Type} (f : Message → Option α) : select f [] = [] := rfl

@[simp]
theorem select_append {α : Type} (f : Message → Option α) (sent out : List Outgoing) :
    select f (sent ++ out) = select f sent ++ select f out := List.filterMap_append

/-! ### Acceptors -/

namespace Acceptor

/-- What can happen to an acceptor. -/
inductive Input where
  /-- A leader asks for a promise. -/
  | prepare (m : Prepare)
  /-- A leader proposes. -/
  | accept (m : Accept)
  /-- It gets a new view of the membership. -/
  | setEpochs (epochs : EpochVector)
  /-- It gets the votes of another acceptor. -/
  | takeOver (s : Snapshot)
  /-- It is told to give up the slots below a mark. -/
  | raiseLow (slot : Nat)
  deriving DecidableEq, Repr

/-- The acceptor after an input, and what it sends. -/
def act (a : Acceptor) : Input → Checked (Acceptor × List Outgoing)
  | .prepare m => do
    let (a, answer) ← a.prepare m
    return (a, answer.toList.map fun (promise, target) => .unicast target (.promise promise))
  | .accept m =>
    let (a, answer) := a.accept m
    .ok (a, answer.toList.map fun vote => .broadcast (.learn vote))
  | .setEpochs epochs => .ok (a.setEpochs epochs, [])
  | .takeOver s => .ok (a.takeOver s, [])
  | .raiseLow slot => .ok (a.raiseLow slot, [])

end Acceptor

/-! ### Proposers -/

namespace Proposer

/-- What can happen to a proposer. -/
inductive Input where
  /-- Its replica trusts somebody to lead. -/
  | trust (leader : Nat)
  /-- An acceptor promises. -/
  | promise (m : Promise)
  /-- A client submits a value. -/
  | submit (value : Value)
  /-- It hears of a round. -/
  | hear (round : Round)
  /-- The learner of its replica has delivered slots. -/
  | noteDelivered (adu : Nat) (decided : List (Nat × Value))
  /-- Phase one took too long. -/
  | retry
  /-- It is time to check for progress. -/
  | checkProgress
  /-- It gets a new view of the membership. -/
  | setEpochs (epochs : EpochVector)
  deriving DecidableEq, Repr

/-- What a proposer does in answer to an input. -/
structure Output where
  /-- The messages sent. -/
  outbound : List Outgoing := []
  /-- The value that was submitted, if it was taken. -/
  taken : Option Value := none
  deriving DecidableEq, Repr

/-- The proposer after an input, and what it does about it. -/
def act (p : Proposer) : Input → Checked (Proposer × Output)
  | .trust leader => do
    let (p, outbound) ← p.trust leader
    return (p, { outbound })
  | .promise m => do
    let (p, outbound) ← p.promise m
    return (p, { outbound })
  | .submit value => do
    let (p, result) ← p.submit value
    match result with
    | .ok outbound => return (p, { outbound, taken := some value })
    | .error _ => return (p, {})
  | .hear round => .ok (p.hear round, {})
  | .noteDelivered adu decided => do
    let (p, outbound) ← p.noteDelivered adu decided
    return (p, { outbound })
  | .retry => do
    let (p, outbound) ← p.retry
    return (p, { outbound })
  | .checkProgress => do
    let (p, outbound) ← p.checkProgress
    return (p, { outbound })
  | .setEpochs epochs => .ok (p.setEpochs epochs, {})

end Proposer

/-! ### Learners -/

namespace Learner

/-- What can happen to a learner. -/
inductive Input where
  /-- Its replica trusts somebody to lead. -/
  | trust (leader : Nat)
  /-- An acceptor votes. -/
  | learn (m : Learn)
  /-- Another learner asks for decided slots. -/
  | request (m : CatchUpRequest)
  /-- Another learner answers with decided slots. -/
  | response (m : CatchUpResponse)
  /-- It has waited long enough for missing slots. -/
  | askAgain
  /-- It gets a new view of the membership. -/
  | setEpochs (epochs : EpochVector)
  deriving DecidableEq, Repr

/-- The learner after an input, and what it does about it. -/
def act (l : Learner) : Input → Checked (Learner × Delivery)
  | .trust leader => .ok (l.trust leader, {})
  | .learn m => l.learn m
  | .request m => do
    return (l, { outbound := [← l.answer m] })
  | .response m => l.takeAnswer m
  | .askAgain => do
    let (l, outbound) ← l.askAgain
    return (l, { outbound })
  | .setEpochs epochs => .ok (l.setEpochs epochs, {})

end Learner

/-! ### Runs -/

/-- One step of a role, in a run of it. -/
structure Turn (σ ι ο : Type) where
  /-- Its state before. -/
  before : σ
  /-- What happened to it. -/
  input : ι
  /-- Its state afterwards. -/
  after : σ
  /-- What it did. -/
  output : ο

/-- The runs of a role from a state on: the state that a run leads to, and its steps in order. -/
inductive Runs {σ ι ο : Type} (act : σ → ι → Checked (σ × ο)) (start : σ) :
    σ → List (Turn σ ι ο) → Prop
  /-- Nothing has happened. -/
  | nil : Runs act start start []
  /-- One more step. -/
  | step {s s' : σ} {x : ι} {o : ο} {ts : List (Turn σ ι ο)} (run : Runs act start s ts)
      (act_eq : act s x = .ok (s', o)) : Runs act start s' (ts ++ [⟨s, x, s', o⟩])

/-- An item of a list is the last one, or it comes before the last one. -/
theorem last_or_before {α : Type} {xs ys zs : List α} {x z : α}
    (h : xs ++ x :: ys = zs ++ [z]) : (xs = zs ∧ x = z) ∨ ∃ ys', xs ++ x :: ys' = zs := by
  rcases List.eq_nil_or_concat ys with rfl | ⟨ys', y, rfl⟩
  · obtain ⟨hxs, hx⟩ := List.append_inj' h rfl
    exact Or.inl ⟨hxs, List.head_eq_of_cons_eq hx⟩
  · rw [List.concat_eq_append, ← List.cons_append, ← List.append_assoc] at h
    exact Or.inr ⟨ys', (List.append_inj' h rfl).1⟩

/-- A list is split at one of its items. -/
theorem eq_take_append_cons_drop {α : Type} {xs : List α} {n : Nat} {x : α} (h : xs[n]? = some x) :
    xs = xs.take n ++ x :: xs.drop (n + 1) := by
  obtain ⟨hlt, rfl⟩ := List.getElem?_eq_some_iff.mp h
  rw [← List.drop_eq_getElem_cons hlt, List.take_append_drop]

namespace Runs

variable {σ ι ο : Type} {act : σ → ι → Checked (σ × ο)} {start s s' : σ}
  {past past' later : List (Turn σ ι ο)}

/-- Each step of a run comes after the run before it. -/
theorem split {t : Turn σ ι ο} (h : Runs act start s (past ++ t :: later)) :
    Runs act start t.before past ∧ act t.before t.input = .ok (t.after, t.output) := by
  generalize hfull : past ++ t :: later = full at h
  induction h generalizing later with
  | nil => simp at hfull
  | step run act_eq ih =>
    rcases last_or_before hfull with ⟨rfl, rfl⟩ | ⟨later', hbefore⟩
    · exact ⟨run, act_eq⟩
    · exact ih hbefore

/-- The steps after a step of a run are a run from the state that this step leads to. -/
theorem rest {t : Turn σ ι ο} (h : Runs act start s (past ++ t :: later)) : Runs act t.after s later := by
  generalize hfull : past ++ t :: later = full at h
  induction h generalizing later with
  | nil => simp at hfull
  | step _ act_eq ih =>
    rcases List.eq_nil_or_concat later with rfl | ⟨later', u, rfl⟩
    · obtain rfl := List.singleton_inj.mp (List.append_inj' hfull rfl).2
      exact .nil
    · rw [List.concat_eq_append, ← List.cons_append, ← List.append_assoc] at hfull
      obtain ⟨hbefore, hlast⟩ := List.append_inj' hfull rfl
      obtain rfl := List.singleton_inj.mp hlast
      rw [List.concat_eq_append]
      exact (ih hbefore).step act_eq

/-- A run goes on where another one ends. -/
theorem trans (h : Runs act start s past) (h' : Runs act s s' later) :
    Runs act start s' (past ++ later) := by
  induction h' with
  | nil => rwa [List.append_nil]
  | step _ act_eq ih =>
    rw [← List.append_assoc]
    exact ih.step act_eq

/-- A run passes through a state after its first steps. -/
theorem exists_append (h : Runs act start s (past ++ later)) :
    ∃ s', Runs act start s' past ∧ Runs act s' s later := by
  cases later with
  | nil =>
    rw [List.append_nil] at h
    exact ⟨s, h, .nil⟩
  | cons t later => exact ⟨t.before, h.split.1, (Runs.nil.step h.split.2).trans h.rest⟩

/-- A role takes all inputs, one after the other, if after each run with the first of them it takes the
next one. -/
theorem exists_of_next {xs : List ι} (hnext : ∀ s past x rest, Runs act start s past →
      past.map Turn.input ++ x :: rest = xs → ∃ s' o, act s x = .ok (s', o)) :
    ∃ s past, Runs act start s past ∧ past.map Turn.input = xs := by
  induction xs using List.reverseRecOn with
  | nil => exact ⟨start, [], .nil, rfl⟩
  | append_singleton xs x ih =>
    obtain ⟨s, past, hrun, rfl⟩ := ih fun s past y rest hrun heq =>
      hnext s past y (rest ++ [x]) hrun (by rw [← heq, List.append_assoc, List.cons_append])
    obtain ⟨s', o, hact⟩ := hnext s past x [] hrun rfl
    exact ⟨s', _, hrun.step hact, by simp⟩

/-- The state of a role and its steps after some inputs, if no step fails. -/
def replay (act : σ → ι → Checked (σ × ο)) :
    σ → List (Turn σ ι ο) → List ι → Option (σ × List (Turn σ ι ο))
  | s, past, [] => some (s, past)
  | s, past, x :: xs =>
    match act s x with
    | .ok (s', o) => replay act s' (past ++ [⟨s, x, s', o⟩]) xs
    | .error _ => none

theorem of_replay {xs : List ι} (hrun : Runs act start s past)
    (h : replay act s past xs = some (s', past')) : Runs act start s' past' := by
  induction xs generalizing s past with
  | nil =>
    cases h
    exact hrun
  | cons x xs ih =>
    unfold replay at h
    split at h
    · rename_i hact
      exact ih (hrun.step hact) h
    · cases h

/-- A run that a replay shows. -/
theorem exists_of_replay (act : σ → ι → Checked (σ × ο)) (start : σ) (xs : List ι)
    (P : σ → List (Turn σ ι ο) → Prop) [∀ s past, Decidable (P s past)]
    (h : (replay act start [] xs).any (fun r => decide (P r.1 r.2)) = true) :
    ∃ s past, Runs act start s past ∧ P s past := by
  cases hr : replay act start [] xs with
  | none =>
    rw [hr] at h
    cases h
  | some r =>
    rw [hr] at h
    exact ⟨r.1, r.2, of_replay .nil hr, of_decide_eq_true h⟩

end Runs

/-! ### Answers -/

/-- What a role does in answer to inputs, one after the other. If a step fails, so does the role, and
there is no answer to the inputs after it. -/
def answers {σ ι ο : Type} (act : σ → ι → Checked (σ × ο)) : σ → List ι → List (Checked ο)
  | _, [] => []
  | s, x :: xs =>
    match act s x with
    | .ok (s', o) => .ok o :: answers act s' xs
    | .error e => [.error e]

/-- States give the same answers if a relation between them is kept by every step, in which both do the
same or both fail for the same reason. -/
theorem answers_eq {σ ι ο : Type} {act : σ → ι → Checked (σ × ο)} {R : σ → σ → Prop}
    {Fine : ι → Prop} {s t : σ} {xs : List ι}
    (hstep : ∀ s t x, R s t → Fine x → (∃ e, act s x = .error e ∧ act t x = .error e) ∨
      ∃ s' t' o, act s x = .ok (s', o) ∧ act t x = .ok (t', o) ∧ R s' t')
    (h : R s t) (hxs : ∀ x ∈ xs, Fine x) : answers act s xs = answers act t xs := by
  induction xs generalizing s t with
  | nil => rfl
  | cons x xs ih =>
    obtain ⟨hx, hxs⟩ := List.forall_mem_cons.mp hxs
    unfold answers
    rcases hstep s t x h hx with ⟨e, hs, ht⟩ | ⟨s', t', o, hs, ht, hR⟩
    · rw [hs, ht]
    · rw [hs, ht]
      exact congrArg (Except.ok o :: ·) (ih hR hxs)

end ReplicatedLog
