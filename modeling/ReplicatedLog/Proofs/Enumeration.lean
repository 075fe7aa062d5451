import ReplicatedLog.Proofs.SubsetOrder

/-!
# Ranks of subsets

Where the subsets can be counted in words, rank and subset determine each other: the rank of a subset is
the number of subsets that come before it lexicographically (`Subsets.unrank_eq_ok_iff`,
`Subsets.exists_rank`, `Subsets.rank_lt_iff`). So the enumeration, which goes from rank to rank, comes to
every subset once, in order, and always knows how many are left (`Subsets.lists_in_order`).
-/

namespace ReplicatedLog

namespace Subsets

/-- A subset of `k` of the numbers below `n`, written as an ascending list. -/
structure IsSubset (n k : Nat) (c : List Nat) : Prop where
  /-- The members ascend. -/
  ascending : c.Pairwise (· < ·)
  /-- There are as many. -/
  length_eq : c.length = k
  /-- They are below `n`. -/
  lt : ∀ i ∈ c, i < n

variable {n k rank rank' : Nat} {c c' : List Nat}

theorem mem_choices_iff_isSubset : c ∈ choices k (List.range n) ↔ IsSubset n k c := by
  rw [mem_choices_range]
  exact ⟨fun ⟨hascending, hlength, hlt⟩ => ⟨hascending, hlength, hlt⟩,
    fun h => ⟨h.ascending, h.length_eq, h.lt⟩⟩

/-! ### Ranks -/

/-- The subset of a rank is found, and it is the one that many places down the list. -/
theorem unrank_eq_ok_iff (hfit : Fits n k) (hrank : rank < n.choose k) :
    unrank rank n k = .ok c ↔ (choices k (List.range n))[rank]? = some c := by
  obtain ⟨found, hfound, hget⟩ := unrank_eq hfit hrank
  rw [hfound, hget, Except.ok.injEq, Option.some.injEq]

/-- In an ascending list, later members are greater. -/
theorem lt_iff_of_pairwise {xs : List (List Nat)} (h : xs.Pairwise (· < ·)) {i j : Nat}
    {a b : List Nat} (ha : xs[i]? = some a) (hb : xs[j]? = some b) : i < j ↔ a < b := by
  obtain ⟨hi, rfl⟩ := List.getElem?_eq_some_iff.mp ha
  obtain ⟨hj, rfl⟩ := List.getElem?_eq_some_iff.mp hb
  have hlt := List.pairwise_iff_getElem.mp h
  constructor
  · exact hlt i j hi hj
  · intro hab
    rcases Nat.lt_trichotomy i j with hij | rfl | hji
    · exact hij
    · exact absurd hab (lt_irrefl _)
    · exact absurd hab (lt_asymm (hlt j i hj hi hji))

/-- **Ranks are ordered as the subsets are.** -/
theorem rank_lt_iff (hfit : Fits n k) (hrank : rank < n.choose k) (hrank' : rank' < n.choose k)
    (hc : unrank rank n k = .ok c) (hc' : unrank rank' n k = .ok c') : rank < rank' ↔ c < c' :=
  lt_iff_of_pairwise (sorted_choices List.pairwise_lt_range k)
    ((unrank_eq_ok_iff hfit hrank).mp hc) ((unrank_eq_ok_iff hfit hrank').mp hc')

/-- Every subset has a rank. -/
theorem exists_rank (hfit : Fits n k) (hc : IsSubset n k c) :
    ∃ rank, rank < n.choose k ∧ unrank rank n k = .ok c := by
  obtain ⟨rank, hget⟩ := List.mem_iff_getElem?.mp (mem_choices_iff_isSubset.mpr hc)
  have hrank : rank < n.choose k := by
    rw [← List.length_range (n := n), ← length_choices]
    exact (List.getElem?_eq_some_iff.mp hget).1
  exact ⟨rank, hrank, (unrank_eq_ok_iff hfit hrank).mpr hget⟩

/-- Every subset has one rank. -/
theorem existsUnique_rank (hfit : Fits n k) (hc : IsSubset n k c) :
    ∃! rank, rank < n.choose k ∧ unrank rank n k = .ok c := by
  obtain ⟨rank, hrank, hget⟩ := exists_rank hfit hc
  refine ⟨rank, ⟨hrank, hget⟩, fun rank' ⟨hrank', hget'⟩ => ?_⟩
  have hlt := (rank_lt_iff hfit hrank hrank' hget hget').not.mpr (lt_irrefl c)
  have hgt := (rank_lt_iff hfit hrank' hrank hget' hget).not.mpr (lt_irrefl c)
  omega

/-! ### The enumeration -/

/-- The enumeration is at its end exactly after as many subsets as there are. -/
theorem next_eq_none_iff (hfit : Fits n k) {j : Nat} (hj : j ≤ n.choose k) :
    next { choose n k with rank := j } = .ok none ↔ j = n.choose k := by
  unfold next
  rw [show ({ choose n k with rank := j } : Subsets).total = n.choose k from count_eq hfit]
  split
  · rename_i hend
    exact ⟨fun _ => le_antisymm hj hend, fun _ => rfl⟩
  · rename_i hmore
    obtain ⟨c, hc, -⟩ := unrank_eq hfit (Nat.not_le.mp hmore)
    constructor
    · intro hnone
      obtain ⟨c', -, hret⟩ := Checked.bind_eq_ok_iff.mp hnone
      cases hret
    · rintro rfl
      exact absurd le_rfl hmore

/-- **The enumeration lists the subsets in order.** Where the subsets of `k` out of `n` can be counted in
words, there is a list of them, each once, in lexicographic order. After any number of steps up to
`n.choose k` the enumeration has come to that many of them, knows how many are left, and is at its end
exactly if none is. The subset of a rank is the one with as many before it on the list; so every subset
has one rank, and ranks are ordered as the subsets are. -/
theorem lists_in_order (hfit : n < k ∨ min k (n - k) * n.choose k < Word.size) :
    ∃ subsets : List (List Nat),
      ((∀ c, c ∈ subsets ↔ IsSubset n k c) ∧ subsets.Pairwise (· < ·) ∧
        subsets.length = n.choose k) ∧
      (∀ j ≤ n.choose k, ∃ rest, (choose n k).take j = .ok (subsets.take j, rest) ∧
        rest.left = n.choose k - j ∧ (rest.next = .ok none ↔ j = n.choose k)) ∧
      (∀ rank < n.choose k, ∃ c, unrank rank n k = .ok c ∧ subsets[rank]? = some c) ∧
      (∀ c, IsSubset n k c → ∃! rank, rank < n.choose k ∧ unrank rank n k = .ok c) ∧
      (∀ rank < n.choose k, ∀ rank' < n.choose k, ∀ c c', unrank rank n k = .ok c →
        unrank rank' n k = .ok c' → (rank < rank' ↔ c < c')) := by
  refine ⟨choices k (List.range n), ⟨fun c => mem_choices_iff_isSubset,
    sorted_choices List.pairwise_lt_range k, ?_⟩, fun j hj => ?_, fun rank => unrank_eq hfit,
    fun c => existsUnique_rank hfit, fun rank hrank rank' hrank' c c' => rank_lt_iff hfit hrank hrank'⟩
  · rw [length_choices, List.length_range]
  · have htake := take_eq hfit j
    rw [min_eq_left hj] at htake
    refine ⟨_, htake, ?_, next_eq_none_iff hfit hj⟩
    rw [left, choose, count_eq hfit]

/-- Of the choices of 23 out of 68 there are so many that 23 times their number just fits in a word. After
two subsets the enumeration knows exactly how many are left, and the 23 greatest numbers have one rank. -/
theorem lists_in_order_of_many : ∃ subsets : List (List Nat),
    ((∀ c, c ∈ subsets ↔ IsSubset 68 23 c) ∧ subsets.Pairwise (· < ·) ∧
      subsets.length = 801957983888792640) ∧
    (∃ rest, (choose 68 23).take 2 = .ok (subsets.take 2, rest) ∧ rest.left = 801957983888792638) ∧
    ∃! rank, rank < 801957983888792640 ∧ unrank rank 68 23 = .ok (List.range' 45 23) := by
  have hchoose : Nat.choose 68 23 = 801957983888792640 := by
    rw [Nat.choose_eq_descFactorial_div_factorial]
    decide +kernel
  obtain ⟨subsets, hlist, htake, -, hrank, -⟩ := lists_in_order (n := 68) (k := 23)
    (Or.inr (by rw [hchoose]; decide))
  rw [hchoose] at hlist htake hrank
  obtain ⟨rest, hrest, hleft, -⟩ := htake 2 (by decide)
  exact ⟨subsets, hlist, ⟨rest, hrest, hleft⟩, hrank _ ⟨by decide, rfl, by decide⟩⟩

end Subsets

end ReplicatedLog
