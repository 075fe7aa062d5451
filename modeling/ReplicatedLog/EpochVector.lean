import ReplicatedLog.Word

/-!
# Epoch vectors

A replica that is replaced comes back under a new epoch. Each replica keeps its view of everybody's
epoch as a vector, indexed by replica. Entries beyond the end of a vector count as zero, but two
vectors are equal only if they have the same length.
-/

namespace ReplicatedLog

/-- A replica's view of the epochs of all replicas. -/
structure EpochVector where
  /-- The epochs, by replica. -/
  entries : List Nat
  deriving DecidableEq, Repr

namespace EpochVector

/-- Every one of `n` replicas in its first epoch. -/
def zeros (n : Nat) : EpochVector := ⟨List.replicate n 0⟩

instance : Inhabited EpochVector := ⟨⟨[]⟩⟩

/-- The epoch of a replica; zero beyond the end. -/
def get (v : EpochVector) (replica : Nat) : Nat := v.entries.getD replica 0

/-- Starts a new epoch of `replica`, which the vector is made long enough to hold. Also gives the
new epoch. -/
def bump (v : EpochVector) (replica : Nat) : Checked (Nat × EpochVector) := do
  let entries ←
    if v.entries.length ≤ replica then do
      let length ← Word.fit (replica + 1)
      pure (v.entries ++ List.replicate (length - v.entries.length) 0)
    else pure v.entries
  let epoch ← Word.fit (entries.getD replica 0 + 1)
  return (epoch, ⟨entries.set replica epoch⟩)

/-- The later epoch of two views, entry by entry, up to the end of the longer. -/
def mergeEntries : List Nat → List Nat → List Nat
  | [], ys => ys
  | xs, [] => xs
  | x :: xs, y :: ys => max x y :: mergeEntries xs ys

/-- Takes over every epoch that `other` knows to be later. -/
def merge (v other : EpochVector) : EpochVector := ⟨mergeEntries v.entries other.entries⟩

/-- The vector as it is written for people. -/
def text (v : EpochVector) : String :=
  "[" ++ ", ".intercalate (v.entries.map toString) ++ "]"

/-- Merging takes the later epoch of each replica. -/
theorem get_merge (v w : EpochVector) (i : Nat) : (v.merge w).get i = max (v.get i) (w.get i) := by
  have h : ∀ (xs ys : List Nat) (i : Nat),
      (mergeEntries xs ys).getD i 0 = max (xs.getD i 0) (ys.getD i 0) := by
    intro xs ys
    fun_induction mergeEntries xs ys with
    | case1 ys => intro i; simp
    | case2 xs => intro i; simp
    | case3 x xs y ys ih =>
      intro i
      cases i with
      | zero => simp
      | succ i => simpa using ih i
  exact h v.entries w.entries i

end EpochVector

end ReplicatedLog
