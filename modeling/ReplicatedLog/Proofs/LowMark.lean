import ReplicatedLog.Proofs.Handover

/-!
# The low mark of an acceptor

How much an acceptor holds, and what it has given up, if it takes over no votes of others. It gives up
slots before it holds a new one, so it never holds more than its retention and the slot that it was last
asked about, however far slots jump (`Acceptor.length_le_of_act`). A step moves the low mark exactly as far
as its input asks for, if the acceptor heeds it: if it promises, or a proposal is neither of a foreign
epoch nor of a round that has passed, or it is told to give up slots (`Acceptor.low_eq_of_act`). Whether
it votes makes no difference.

So after any run the low mark is the highest mark that was ever asked for (`Acceptor.window_bounded`).
-/

namespace ReplicatedLog

namespace Acceptor

variable {a a' : Acceptor} {x : Input} {out : List Outgoing} {past : Past} {retention : Nat}

/-- In a step the acceptor heeds what it is asked for: it promises, or it looks at its vote for the
proposed slot. What is not a request, it always heeds. -/
def Heeded (t : Turn Acceptor Input (List Outgoing)) : Prop :=
  match t.input with
  | .prepare _ => t.output ≠ []
  | .accept m => t.before.mode.admits t.before.id t.before.epochs m = true ∧ t.before.round ≤ m.round
  | _ => True

instance : DecidablePred Heeded := fun t => by
  unfold Heeded
  split <;> infer_instance

/-- The highest low mark that was asked for in the steps of a run, which starts at slot 1. -/
def highestMark (retention : Nat) (past : Past) : Nat :=
  ((past.filter fun t => Heeded t).map fun t => t.input.mark retention).foldl max 1

theorem highestMark_append_singleton (retention : Nat) (past : Past)
    (t : Turn Acceptor Input (List Outgoing)) : highestMark retention (past ++ [t]) =
      if Heeded t then max (highestMark retention past) (t.input.mark retention)
      else highestMark retention past := by
  unfold highestMark
  rw [List.filter_append, List.map_append, List.foldl_append]
  by_cases h : Heeded t <;> simp [h]

/-- Giving up slots and then touching one leaves room for that slot and the retention below it. -/
theorem length_touch_retainedFor_le (hlength : a.window.length ≤ a.retention + 1) (slot : Nat) :
    ((a.retainedFor slot).touch slot).length ≤ a.retention + 1 := by
  rw [Window.length_touch]
  simp only [retainedFor, Window.length_raise, Window.low_raise]
  split <;> omega

/-- **A window never holds more than the retention and one slot**, if it does not to begin with. -/
theorem length_le_of_act (hx : ∀ s, x ≠ .takeOver s) (hlength : a.window.length ≤ a.retention + 1)
    (h : a.act x = .ok (a', out)) : a'.window.length ≤ a.retention + 1 := by
  have hraised : ∀ below, (a.window.raise below).length ≤ a.retention + 1 := by
    intro below
    rw [Window.length_raise]
    exact (Nat.sub_le _ _).trans hlength
  cases x with
  | prepare m =>
    obtain ⟨⟨a₁, answer⟩, hprepare, hret⟩ := Checked.bind_eq_ok_iff.mp h
    cases hret
    rcases prepare_cases hprepare with ⟨-, rfl, -⟩ | ⟨-, rfl, -⟩
    · exact hlength
    · exact hraised _
  | accept m =>
    have htouched := length_touch_retainedFor_le hlength m.slot
    have ha' : (a.accept m).1 = a' := congrArg Prod.fst (Except.ok.inj h)
    rw [← ha', accept_eq]
    split
    · exact hlength
    split
    · exact htouched
    · -- the slot was touched before
      dsimp only
      rw [Window.length_modify, Window.length_touch, Window.low_touch]
      rw [Window.length_touch] at htouched ⊢
      split <;> simp_all
  | setEpochs epochs =>
    cases h
    exact hlength
  | takeOver s => exact absurd rfl (hx s)
  | raiseLow slot =>
    cases h
    exact hraised slot

/-- A proposal that the acceptor looks at makes it give up slots, whether it votes or not. -/
theorem low_accept_of_heeded {m : Accept} (hadmits : a.mode.admits a.id a.epochs m = true)
    (hround : a.round ≤ m.round) :
    (a.accept m).1.window.low = max a.window.low (m.slot - a.retention) := by
  have hlow : (a.retainedFor m.slot).low = max a.window.low (m.slot - a.retention) :=
    Window.low_raise _ _
  rw [accept_eq, if_neg (by simp [hadmits, hround])]
  split
  · exact (Window.low_touch _ _).trans hlow
  · exact (Window.low_modify _ _ _).trans ((Window.low_touch _ _).trans hlow)

/-- **A step moves the low mark as far as is asked for**, if it is heeded, and else not at all. -/
theorem low_eq_of_act (hx : ∀ s, x ≠ .takeOver s) (h : a.act x = .ok (a', out)) :
    a'.window.low =
      if Heeded ⟨a, x, a', out⟩ then max a.window.low (x.mark a.retention) else a.window.low := by
  cases x with
  | prepare m =>
    obtain ⟨⟨a₁, answer⟩, hprepare, hret⟩ := Checked.bind_eq_ok_iff.mp h
    cases hret
    rcases prepare_cases hprepare with ⟨-, rfl, rfl⟩ | ⟨-, rfl, reports, rfl, -⟩
    · rw [if_neg (by simp [Heeded])]
    · rw [if_pos (by simp [Heeded])]
      exact Window.low_raise _ _
  | accept m =>
    have ha' : (a.accept m).1 = a' := congrArg Prod.fst (Except.ok.inj h)
    refine (congrArg (fun a : Acceptor => a.window.low) ha').symm.trans ?_
    by_cases hheeded : Heeded ⟨a, .accept m, a', out⟩
    · rw [if_pos hheeded]
      exact low_accept_of_heeded hheeded.1 hheeded.2
    · rw [if_neg hheeded, accept_eq, if_pos]
      rw [← Bool.not_eq_true, ← not_le, ← not_and_or]
      exact hheeded
  | setEpochs epochs =>
    cases h
    rw [if_pos (by trivial)]
    exact (max_eq_left (Nat.zero_le _)).symm
  | takeOver s => exact absurd rfl (hx s)
  | raiseLow slot =>
    cases h
    rw [if_pos (by trivial)]
    exact Window.low_raise _ _

/-- What runs without the votes of others do to the window. -/
theorem window_of_runs {id : Nat} {epochs : EpochVector} {mode : Mode}
    (h : Runs act { id, epochs, retention, mode } a past)
    (hown : ∀ t ∈ past, ∀ s, t.input ≠ .takeOver s) :
    a.retention = retention ∧ a.window.length ≤ retention + 1 ∧
      a.window.low = highestMark retention past := by
  induction h with
  | nil => exact ⟨rfl, Nat.zero_le _, rfl⟩
  | @step a a' x out past _ act_eq ih =>
    obtain ⟨hpast, hx⟩ := List.forall_mem_append.mp hown
    rw [List.forall_mem_singleton] at hx
    obtain ⟨rfl, hlength, hlow⟩ := ih hpast
    refine ⟨(low_of_act hx act_eq).1, ?_, ?_⟩
    · exact length_le_of_act hx hlength act_eq
    · rw [highestMark_append_singleton, low_eq_of_act hx act_eq, hlow]

/-- What is heard of never makes the window end beyond the words. -/
theorem stop_le_of_runs {start : Acceptor} (h : Runs act start a past)
    (hstart : start.window.stop ≤ Word.top) (hpast : ∀ t ∈ past, t.input.Within Word.top) :
    a.window.stop ≤ Word.top := by
  induction h with
  | nil => exact hstart
  | step _ act_eq ih =>
    obtain ⟨hbefore, hx⟩ := List.forall_mem_append.mp hpast
    exact stop_le_of_act (ih hbefore) (hx _ List.mem_cons_self) act_eq

/-- **The window of an acceptor is small, and its low mark is what was asked for.** An acceptor takes all
requests, proposals and demands to give up slots, in any order and about any slots short of the greatest
word. It never holds more slots than its retention and one more, and its low mark is the highest one that
was asked for and heeded. -/
theorem window_bounded (id : Nat) (epochs : EpochVector) (retention : Nat) (mode : Mode)
    {xs : List Input} (hwithin : ∀ x ∈ xs, x.Within Word.top) (hown : ∀ s, Input.takeOver s ∉ xs) :
    ∃ a past, Runs act { id, epochs, retention, mode } a past ∧ past.map Turn.input = xs ∧
      a.window.length ≤ retention + 1 ∧ a.window.low = highestMark retention past := by
  have hstart : ({ id, epochs, retention, mode } : Acceptor).window.stop ≤ Word.top :=
    show 1 ≤ Word.top by decide
  have hnext : ∀ (a : Acceptor) (past : Past) (x : Input) (rest : List Input),
      Runs act { id, epochs, retention, mode } a past → past.map Turn.input ++ x :: rest = xs →
        ∃ a' out, a.act x = .ok (a', out) := by
    rintro a past x rest hrun rfl
    obtain ⟨hbefore, hrest⟩ := List.forall_mem_append.mp hwithin
    have hstop := stop_le_of_runs hrun hstart fun t ht => hbefore _ (List.mem_map_of_mem ht)
    exact exists_act (by decide) hstop (hrest x List.mem_cons_self)
  obtain ⟨a, past, hrun, rfl⟩ := Runs.exists_of_next hnext
  obtain ⟨-, hlength, hlow⟩ := window_of_runs hrun fun t ht s hs =>
    hown s (hs ▸ List.mem_map_of_mem ht)
  exact ⟨a, past, hrun, rfl, hlength, hlow⟩

/-- With retention 2, slots jump from 1 to 10, which gives up slot 7. A foreign epoch and two rounds that
have passed ask for more in vain; a late proposal, a repeated one and a promise ask for less. Then slot 8
is given up on demand. -/
theorem window_bounded_of_jump : ∃ (xs : List Input) (a : Acceptor) (past : Past),
    (∀ x ∈ xs, x.Within Word.top) ∧ (∀ s, Input.takeOver s ∉ xs) ∧
    Runs act { id := 1, epochs := .zeros 3, retention := 2, mode := .epochAware } a past ∧
    past.map Turn.input = xs ∧ a.window.length ≤ 3 ∧ a.window.low = highestMark 2 past ∧
    ((Runs.replay act { id := 1, epochs := .zeros 3, retention := 2, mode := .epochAware } [] xs).map
      fun r => r.2.map fun t => (t.after.window.low, t.after.window.length, decide (Heeded t))) =
      some [(1, 1, true), (8, 3, true), (8, 3, false), (8, 3, true), (8, 3, true), (8, 3, true),
        (8, 3, false), (8, 3, false), (9, 2, true)] := by
  let e : EpochVector := .zeros 3
  let v := Value.appBatch [65]
  let xs : List Input := [.accept ⟨0, ⟨1, 0⟩, 1, v, e⟩, .accept ⟨0, ⟨1, 0⟩, 10, v, e⟩,
    .accept ⟨0, ⟨1, 0⟩, 50, v, ⟨[0, 1, 0]⟩⟩, .accept ⟨0, ⟨1, 0⟩, 3, v, e⟩,
    .accept ⟨0, ⟨1, 0⟩, 10, v, e⟩, .prepare ⟨2, ⟨2, 2⟩, 4⟩, .accept ⟨0, ⟨1, 0⟩, 60, v, e⟩,
    .prepare ⟨0, ⟨2, 0⟩, 70⟩, .raiseLow 9]
  have hwithin : ∀ x ∈ xs, x.Within Word.top := by decide
  have hown : ∀ s, Input.takeOver s ∉ xs := by simp [xs]
  obtain ⟨a, past, hrun, hinputs, hlength, hlow⟩ := window_bounded 1 e 2 .epochAware hwithin hown
  exact ⟨xs, a, past, hwithin, hown, hrun, hinputs, hlength, hlow, by decide +kernel⟩

end Acceptor

end ReplicatedLog
