/-!
# Words

Slots, round counters, epochs and replica identifiers are natural numbers that a word of 64 bits
holds; the number of times a proposal was sent again fits in 32 bits, and the number of holes that
a leader fills in 31, with one more for the sign. The roles compute with `ℕ` and check every sum
that could leave its word, in the order in which the sums are needed. A sum that does not fit stops
the computation; nothing wraps around.

* `Overflow` — the arithmetic that left its word.
* `Checked α` — the result of a computation whose arithmetic fits.
* `Word.fit`, `Word.fitHalf`, `Word.fitCount`, `Word.monus` — the checks.
-/

namespace ReplicatedLog

/-- The kind of arithmetic whose result left its word. -/
inductive Overflow where
  /-- A sum was too large. -/
  | addition
  /-- A difference was negative. -/
  | subtraction
  deriving DecidableEq, Repr

/-- The result of a computation all of whose arithmetic has to fit in words. -/
abbrev Checked (α : Type) := Except Overflow α

/-- A computation in steps succeeds exactly when each of its steps does. -/
theorem Checked.bind_eq_ok_iff {α β : Type} {x : Checked α} {f : α → Checked β} {b : β} :
    (x >>= f) = .ok b ↔ ∃ a, x = .ok a ∧ f a = .ok b := by
  cases x with
  | error e => exact ⟨(fun h => nomatch h), fun ⟨_, h, _⟩ => nomatch h⟩
  | ok a => exact ⟨fun h => ⟨a, rfl, h⟩, fun ⟨_, h, h'⟩ => by cases h; exact h'⟩

/-- What a computation along a list gives, it gives for some member of the list. -/
theorem Checked.exists_of_mem_mapM {α β : Type} {f : α → Checked β} {xs : List α} {ys : List β}
    {y : β} (h : xs.mapM f = .ok ys) (hy : y ∈ ys) : ∃ x ∈ xs, f x = .ok y := by
  induction xs generalizing ys with
  | nil =>
    obtain rfl := Except.ok.inj h
    exact (List.not_mem_nil hy).elim
  | cons x xs ih =>
    rw [List.mapM_cons] at h
    obtain ⟨y', hy', hrest⟩ := bind_eq_ok_iff.mp h
    obtain ⟨ys', hys', hret⟩ := bind_eq_ok_iff.mp hrest
    obtain rfl := Except.ok.inj hret
    rcases List.mem_cons.mp hy with rfl | hy
    · exact ⟨x, List.mem_cons_self, hy'⟩
    · obtain ⟨x', hx', hfx'⟩ := ih hys' hy
      exact ⟨x', List.mem_cons_of_mem x hx', hfx'⟩

/-- What a computation along a list gives, it gives for each member of the list. -/
theorem Checked.exists_mem_of_mapM {α β : Type} {f : α → Checked β} {xs : List α} {ys : List β}
    {x : α} (h : xs.mapM f = .ok ys) (hx : x ∈ xs) : ∃ y ∈ ys, f x = .ok y := by
  induction xs generalizing ys with
  | nil => exact (List.not_mem_nil hx).elim
  | cons x' xs ih =>
    rw [List.mapM_cons] at h
    obtain ⟨y, hy, hrest⟩ := bind_eq_ok_iff.mp h
    obtain ⟨ys', hys', hret⟩ := bind_eq_ok_iff.mp hrest
    obtain rfl := Except.ok.inj hret
    rcases List.mem_cons.mp hx with rfl | hx
    · exact ⟨y, List.mem_cons_self, hy⟩
    · obtain ⟨y', hy', hfx⟩ := ih hys' hx
      exact ⟨y', List.mem_cons_of_mem y hy', hfx⟩

namespace Word

/-- The number of values of a word of 64 bits. -/
def size : Nat := 0x10000000000000000

/-- The greatest number that a word of 64 bits holds. -/
def top : Nat := 0xFFFFFFFFFFFFFFFF

/-- The number of values of a word of 32 bits. -/
def halfSize : Nat := 0x100000000

/-- The number of values of a signed word of 32 bits that are not negative. -/
def countSize : Nat := 0x80000000

/-- The sum `n`, provided that 64 bits hold it. -/
def fit (n : Nat) : Checked Nat :=
  if n < size then .ok n else .error .addition

/-- The sum `n`, provided that 32 bits hold it. -/
def fitHalf (n : Nat) : Checked Nat :=
  if n < halfSize then .ok n else .error .addition

/-- The count `n`, provided that 31 bits hold it. -/
def fitCount (n : Nat) : Checked Nat :=
  if n < countSize then .ok n else .error .addition

/-- The difference `m - n`, provided that it is not negative. -/
def monus (m n : Nat) : Checked Nat :=
  if n ≤ m then .ok (m - n) else .error .subtraction

/-- A sum passes the check exactly when it is below `2 ^ 64`, and is not changed by it. -/
theorem fit_eq_ok_iff {n m : Nat} : fit n = .ok m ↔ n < size ∧ m = n := by
  by_cases h : n < size
  · simp only [fit, if_pos h, Except.ok.injEq]
    exact ⟨fun e => ⟨h, e.symm⟩, fun ⟨_, e⟩ => e.symm⟩
  · simp only [fit, if_neg h]
    exact ⟨(fun e => nomatch e), fun ⟨h', _⟩ => absurd h' h⟩

/-- A resend count passes the check exactly when it is below `2 ^ 32`, and is not changed by it. -/
theorem fitHalf_eq_ok_iff {n m : Nat} : fitHalf n = .ok m ↔ n < halfSize ∧ m = n := by
  by_cases h : n < halfSize
  · simp only [fitHalf, if_pos h, Except.ok.injEq]
    exact ⟨fun e => ⟨h, e.symm⟩, fun ⟨_, e⟩ => e.symm⟩
  · simp only [fitHalf, if_neg h]
    exact ⟨(fun e => nomatch e), fun ⟨h', _⟩ => absurd h' h⟩

/-- A count passes the check exactly when it is below `2 ^ 31`, and is not changed by it. -/
theorem fitCount_eq_ok_iff {n m : Nat} : fitCount n = .ok m ↔ n < countSize ∧ m = n := by
  by_cases h : n < countSize
  · simp only [fitCount, if_pos h, Except.ok.injEq]
    exact ⟨fun e => ⟨h, e.symm⟩, fun ⟨_, e⟩ => e.symm⟩
  · simp only [fitCount, if_neg h]
    exact ⟨(fun e => nomatch e), fun ⟨h', _⟩ => absurd h' h⟩

end Word

end ReplicatedLog
