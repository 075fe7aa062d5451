import ReplicatedLog.Word

/-!
# Subsets in lexicographic order

The subsets of `k` of the numbers `0, …, n - 1`, each written as an ascending list, in
lexicographic order.

* `Subsets.count` — how many there are, up to the greatest number a word holds.
* `Subsets.unrank` — the subset of a given rank, found without listing those before it.
* `Subsets.next` — the enumeration, one subset at a time.
-/

namespace ReplicatedLog

namespace Subsets

/-- Multiplies up `steps` further factors of a binomial coefficient: `product` is the coefficient
of `n` over `done`. Every division is exact. A product that does not fit in a word makes the answer
the greatest number that does. -/
def countFrom (n : Nat) : (steps done product : Nat) → Nat
  | 0, _, product => product
  | steps + 1, done, product =>
    if product * (n - done) < Word.size then
      countFrom n steps (done + 1) (product * (n - done) / (done + 1))
    else Word.top

/-- The number of subsets of `k` out of `n`; the greatest number of a word if an intermediate
product does not fit. -/
def count (n k : Nat) : Nat :=
  if n < k then 0 else countFrom n (min k (n - k)) 0 1

/-- The `remaining` least members that a subset of rank `rank` has from `candidate` on. There is
none if the candidates run out: then `n - candidate - 1` is negative. -/
def unrankFrom (n rank candidate : Nat) : (remaining : Nat) → Checked (List Nat)
  | 0 => .ok []
  | remaining + 1 =>
    if n ≤ candidate then .error .subtraction
    else
      let starting := count (n - candidate - 1) remaining
      if rank < starting then do
        return candidate :: (← unrankFrom n rank (candidate + 1) remaining)
      else unrankFrom n (rank - starting) (candidate + 1) (remaining + 1)
  termination_by n - candidate

/-- The subset of `k` out of `n` with `rank` subsets before it. -/
def unrank (rank n k : Nat) : Checked (List Nat) := unrankFrom n rank 0 k

end Subsets

/-- An enumeration of the subsets of `k` out of `n` that has come up to a rank. -/
structure Subsets where
  /-- How many numbers to choose from. -/
  n : Nat
  /-- How many to choose. -/
  k : Nat
  /-- The rank of the next subset. -/
  rank : Nat
  /-- The rank at which the enumeration ends. -/
  total : Nat
  deriving DecidableEq, Repr

namespace Subsets

/-- The enumeration of the subsets of `k` out of `n`, from the first on. -/
def choose (n k : Nat) : Subsets := ⟨n, k, 0, count n k⟩

/-- The number of subsets still to come. -/
def left (s : Subsets) : Nat := s.total - s.rank

/-- The next subset, and the enumeration after it; `none` at the end. -/
def next (s : Subsets) : Checked (Option (List Nat × Subsets)) :=
  if s.total ≤ s.rank then .ok none
  else do
    let subset ← unrank s.rank s.n s.k
    return some (subset, { s with rank := s.rank + 1 })

/-- The next subsets, `limit` of them or all that are left, and the enumeration after them. -/
def take : (limit : Nat) → Subsets → Checked (List (List Nat) × Subsets)
  | 0, s => .ok ([], s)
  | limit + 1, s => do
    match ← s.next with
    | none => return ([], s)
    | some (subset, s) =>
      let (subsets, s) ← take limit s
      return (subset :: subsets, s)

end Subsets

end ReplicatedLog
