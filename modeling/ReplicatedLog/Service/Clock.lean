import ReplicatedLog.Word

/-!
# Virtual time

Time is a number of milliseconds that moves only when somebody lets it pass. What has timers is
described by `Timed`: when something is due next, and what happens then. `Timed.pass` lets time
pass and has everything happen that is due on the way, in order of time.

Who sets an alarm gets a handle, by which the alarm can be cleared before it goes off (`Alarms`).
-/

namespace ReplicatedLog

namespace Clock

/-- The next instant after `now` at which something happens that happens in every `period`. A
period of zero never comes round. -/
def nextTick (period now : Nat) : Option Nat :=
  if period = 0 then none else some ((now / period + 1) * period)

/-- Whether something that happens in every `period` happens now. -/
def isTick (period now : Nat) : Bool := decide (0 < period) && now % period == 0

/-- The instant after `now` at which an alarm goes off that was set for `deadline`. -/
def nextFiring (deadline : Option Nat) (now : Nat) : Option Nat :=
  deadline.map fun deadline => max deadline (now + 1)

/-- The earlier of two instants that may never come. -/
def earlier : Option Nat → Option Nat → Option Nat
  | none, t => t
  | t, none => t
  | some t, some t' => some (min t t')

end Clock

/-- The alarms that somebody has set. -/
structure Alarms where
  /-- The alarms that are running, in the order in which they were set: the handle of each, and when
  it goes off. -/
  running : List (Nat × Nat) := []
  /-- The handle that the next alarm gets. -/
  nextHandle : Nat := 0
  deriving DecidableEq, Repr

namespace Alarms

/-- One more alarm is set, and gets a handle. -/
def set (a : Alarms) (deadline : Nat) : Alarms × Nat :=
  (⟨a.running ++ [(a.nextHandle, deadline)], a.nextHandle + 1⟩, a.nextHandle)

/-- An alarm is not to go off any more. -/
def clear (a : Alarms) (handle : Nat) : Alarms :=
  { a with running := a.running.filter fun alarm => alarm.1 != handle }

/-- Whether an alarm is running. -/
def isRunning (a : Alarms) (handle : Nat) : Bool := a.running.any fun alarm => alarm.1 == handle

/-- What is cleared does not run, and all else does. -/
theorem mem_running_clear {a : Alarms} {handle : Nat} {alarm : Nat × Nat} :
    alarm ∈ (a.clear handle).running ↔ alarm ∈ a.running ∧ alarm.1 ≠ handle := by
  simp [clear]

/-- If one alarm runs at most, then none does once it is cleared. -/
theorem running_clear_of_toList {a : Alarms} {handle : Nat}
    (h : a.running.map Prod.fst = (some handle).toList) : (a.clear handle).running = [] := by
  refine List.eq_nil_iff_forall_not_mem.mpr fun alarm hmem => ?_
  obtain ⟨hrunning, hne⟩ := mem_running_clear.mp hmem
  have hfst : alarm.1 ∈ a.running.map Prod.fst := List.mem_map_of_mem hrunning
  rw [h] at hfst
  exact hne (List.mem_singleton.mp hfst)

theorem isRunning_iff {a : Alarms} {handle : Nat} :
    a.isRunning handle = true ↔ handle ∈ a.running.map Prod.fst := by
  simp [isRunning]

/-- The alarm that goes off first; of those that go off at the same time, the one that was set
first. -/
def first? (a : Alarms) : Option (Nat × Nat) :=
  a.running.foldl
    (fun first? alarm => match first? with
      | none => some alarm
      | some first => some (if alarm.2 < first.2 then alarm else first))
    none

end Alarms

/-- Something with timers, and what it does when they run out. -/
structure Timed (σ ε : Type) where
  /-- The next instant after a given one at which something is due. -/
  due : σ → Nat → Option Nat
  /-- Everything happens that is due at an instant. -/
  elapse : σ → Nat → Checked (σ × List ε)

namespace Timed

variable {σ ε : Type}

/-- Time passes from `now` to `target`. No more than `limit` instants are looked at. -/
def passUpTo (t : Timed σ ε) : (limit : Nat) → σ → (now target : Nat) → Checked (σ × List ε)
  | 0, s, _, _ => .ok (s, [])
  | limit + 1, s, now, target =>
    match t.due s now with
    | none => .ok (s, [])
    | some instant =>
      if target < instant then .ok (s, [])
      else do
        let (s, first) ← t.elapse s instant
        let (s, rest) ← passUpTo t limit s instant target
        return (s, first ++ rest)

/-- Time passes from `now` to `target`; whatever is due on the way happens in order of time. Every
instant at which something is due comes after the one before, so there are no more of them than
milliseconds. -/
def pass (t : Timed σ ε) (s : σ) (now target : Nat) : Checked (σ × List ε) :=
  passUpTo t (target - now) s now target

end Timed

end ReplicatedLog
