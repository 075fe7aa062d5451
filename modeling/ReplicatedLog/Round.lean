import ReplicatedLog.Word

/-!
# Rounds

A round is the number under which a replica tries to lead: a counter, and the replica that owns
the round. Rounds are ordered by counter, then by owner, so that no two replicas ever lead under
the same number. A round whose counter is zero is a bottom round: nobody has led yet.
-/

namespace ReplicatedLog

/-- The number under which a replica leads. -/
structure Round where
  /-- Counts the attempts; the more significant part of the order. -/
  counter : Nat
  /-- The replica that owns the round. -/
  owner : Nat
  deriving DecidableEq, Repr

namespace Round

/-- The least round, before any attempt to lead. -/
def bottom : Round := ⟨0, 0⟩

instance : Inhabited Round := ⟨bottom⟩

/-- Whether the round stands for no attempt to lead at all; the owner does not matter. -/
def isBottom (r : Round) : Bool := r.counter == 0

/-- By counter, then by owner. -/
protected def Lt (a b : Round) : Prop :=
  a.counter < b.counter ∨ (a.counter = b.counter ∧ a.owner < b.owner)

/-- By counter, then by owner. -/
protected def Le (a b : Round) : Prop :=
  a.counter < b.counter ∨ (a.counter = b.counter ∧ a.owner ≤ b.owner)

instance : LT Round := ⟨Round.Lt⟩

instance : LE Round := ⟨Round.Le⟩

instance (a b : Round) : Decidable (a < b) :=
  inferInstanceAs (Decidable (a.counter < b.counter ∨ (a.counter = b.counter ∧ a.owner < b.owner)))

instance (a b : Round) : Decidable (a ≤ b) :=
  inferInstanceAs (Decidable (a.counter < b.counter ∨ (a.counter = b.counter ∧ a.owner ≤ b.owner)))

instance : Max Round := maxOfLe

theorem lt_def {a b : Round} :
    a < b ↔ a.counter < b.counter ∨ (a.counter = b.counter ∧ a.owner < b.owner) := Iff.rfl

theorem le_def {a b : Round} :
    a ≤ b ↔ a.counter < b.counter ∨ (a.counter = b.counter ∧ a.owner ≤ b.owner) := Iff.rfl

/-- The order is total: what is not below is at least as great. -/
theorem not_lt {a b : Round} : ¬ a < b ↔ b ≤ a := by
  rw [lt_def, le_def]; omega

/-- The order is total: what is not at most is greater. -/
theorem not_le {a b : Round} : ¬ a ≤ b ↔ b < a := by
  rw [lt_def, le_def]; omega

/-- Rounds at most each other are the same. -/
theorem le_antisymm {a b : Round} (h : a ≤ b) (h' : b ≤ a) : a = b := by
  rw [le_def] at h h'
  cases a; cases b
  simp_all
  omega

/-- The position of `a` relative to `b`. -/
def order (a b : Round) : Ordering :=
  if a < b then .lt else if b < a then .gt else .eq

/-- The first round of `owner` above this one and above every round whose counter was seen. -/
def next (r : Round) (seen owner : Nat) : Checked Round := do
  return ⟨← Word.fit (max r.counter seen + 1), owner⟩

/-- The round as it is written for people: owner, then counter. -/
def text (r : Round) : String := s!"(r{r.owner},{r.counter})"

end Round

end ReplicatedLog
