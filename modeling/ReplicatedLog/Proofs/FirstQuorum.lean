import Mathlib.Data.List.Find
import ReplicatedLog.Proofs.ConflictFree

/-!
# The first valid quorum

Of all choices of positions whose messages do not conflict, the search for a valid quorum finds the
lexicographically first one. The search goes through the choices of candidates in order, and these are
the choices of positions in order (`firstValidQuorum_eq_find?`), which the enumeration of subsets lists
rank by rank. So the search finds what the enumeration comes to first, too (`firstValidQuorum_exact`).
-/

namespace ReplicatedLog

/-- Positions of `size` messages no two of which conflict. -/
structure QuorumAt (stamps : List Stamp) (size : Nat) (positions : List Nat) : Prop where
  /-- They are different. -/
  nodup : positions.Nodup
  /-- There are as many. -/
  length_eq : positions.length = size
  /-- There are messages at them. -/
  lt_length : ∀ i ∈ positions, i < stamps.length
  /-- The messages at different ones do not conflict. -/
  conflictFree : positions.Pairwise fun i j =>
    ∀ a b, stamps[i]? = some a → stamps[j]? = some b → a.conflicts b = false

/-- The stamps of the messages at some positions. -/
def stampsAt (stamps : List Stamp) (positions : List Nat) : List Stamp :=
  positions.filterMap fun i => stamps[i]?

variable {stamps : List Stamp} {size : Nat} {positions : List Nat}

theorem conflictFree_stampsAt_iff : ConflictFree (stampsAt stamps positions) ↔
    positions.Pairwise fun i j =>
      ∀ a b, stamps[i]? = some a → stamps[j]? = some b → a.conflicts b = false := by
  unfold ConflictFree stampsAt
  rw [List.pairwise_filterMap]
  constructor <;> refine List.Pairwise.imp fun h => ?_
  · exact fun a b ha hb => h a ha b hb
  · exact fun a ha b hb => h a b ha hb

/-- In which order positions are given does not matter. -/
theorem QuorumAt.perm {other : List Nat} (h : QuorumAt stamps size positions)
    (hperm : positions.Perm other) : QuorumAt stamps size other where
  nodup := hperm.nodup_iff.mp h.nodup
  length_eq := hperm.length_eq.symm.trans h.length_eq
  lt_length i hi := h.lt_length i (hperm.mem_iff.mpr hi)
  conflictFree := by
    refine (hperm.pairwise_iff fun h a b ha hb => ?_).mp h.conflictFree
    rw [Stamp.conflicts_comm]
    exact h b a hb ha

/-- The choices of positions in order that are conflict-free are the ascending ones. -/
theorem mem_choices_and_conflictFree_iff :
    (positions ∈ choices size (List.range stamps.length) ∧
      ConflictFree (stampsAt stamps positions)) ↔
      positions.Pairwise (· < ·) ∧ QuorumAt stamps size positions := by
  rw [mem_choices_range, conflictFree_stampsAt_iff]
  constructor
  · rintro ⟨⟨hsorted, hlength, hbound⟩, hfree⟩
    exact ⟨hsorted, hsorted.imp Nat.ne_of_lt, hlength, hbound, hfree⟩
  · rintro ⟨hsorted, h⟩
    exact ⟨⟨hsorted, h.length_eq, h.lt_length⟩, h.conflictFree⟩

/-- The search goes through the choices of positions in order. -/
theorem firstValidQuorum_eq_find? (stamps : List Stamp) (size : Nat) :
    firstValidQuorum stamps size = (choices size (List.range stamps.length)).find?
      fun positions => ConflictFree (stampsAt stamps positions) := by
  have hpositions : ((List.range stamps.length).zip stamps).map Prod.fst =
      List.range stamps.length := List.map_fst_zip (by simp)
  have hstamp : ∀ d ∈ (List.range stamps.length).zip stamps, stamps[d.1]? = some d.2 := by
    rintro ⟨i, stamp⟩ hmem
    obtain ⟨k, hk⟩ := List.mem_iff_getElem?.mp hmem
    obtain ⟨hi, hget⟩ := List.getElem?_zip_eq_some.mp hk
    obtain ⟨hlt, rfl⟩ := List.getElem?_eq_some_iff.mp hi
    rw [List.getElem_range]
    exact hget
  unfold firstValidQuorum
  rw [firstConflictFree_eq_find?]
  conv_rhs => rw [← hpositions, choices_map, List.find?_map]
  congr 1
  refine List.find?_congr fun c hc => ?_
  -- the candidates of a choice are the messages at its positions
  have hstamps : stampsAt stamps (c.map Prod.fst) = c.map Prod.snd := by
    rw [stampsAt, List.filterMap_map, ← List.filterMap_eq_map]
    exact List.filterMap_congr fun d hd => hstamp d ((mem_choices.mp hc).1.subset hd)
  simp [Goes, hstamps]

/-- **The search for a valid quorum is exact.** It finds nothing exactly if there are no `size` messages,
at different positions, no two of which conflict. Otherwise it finds the ascending positions of such
messages that come first lexicographically. Where the subsets can be counted in words, it is what the
enumeration of all subsets of the positions, which ends after as many as there are, comes to first. -/
theorem firstValidQuorum_exact (stamps : List Stamp) (size : Nat) :
    (firstValidQuorum stamps size = none ↔ ¬ ∃ positions, QuorumAt stamps size positions) ∧
    (∀ positions, firstValidQuorum stamps size = some positions →
      positions.Pairwise (· < ·) ∧ QuorumAt stamps size positions ∧
        ∀ other, other.Pairwise (· < ·) → QuorumAt stamps size other → positions ≤ other) ∧
    (stamps.length < size ∨
        min size (stamps.length - size) * stamps.length.choose size < Word.size →
      ∃ subsets rest, (Subsets.choose stamps.length size).take (stamps.length.choose size) =
          .ok (subsets, rest) ∧ rest.next = .ok none ∧
        subsets.find? (fun positions => ConflictFree (stampsAt stamps positions)) =
          firstValidQuorum stamps size) := by
  refine ⟨?_, fun positions hfound => ?_, fun hfit => ?_⟩
  · rw [firstValidQuorum_eq_find?, List.find?_eq_none]
    constructor
    · rintro hnone ⟨positions, h⟩
      have hperm := (List.perm_insertionSort (· ≤ ·) positions).symm
      have hsorted : (positions.insertionSort (· ≤ ·)).Pairwise (· < ·) :=
        (List.pairwise_insertionSort (· ≤ ·) positions).imp₂
          (fun _ _ hle hne => Nat.lt_of_le_of_ne hle hne) (hperm.nodup_iff.mp h.nodup)
      obtain ⟨hmem, hfree⟩ := mem_choices_and_conflictFree_iff.mpr ⟨hsorted, h.perm hperm⟩
      exact hnone _ hmem (decide_eq_true hfree)
    · intro hnone positions hmem hfree
      exact hnone ⟨positions,
        (mem_choices_and_conflictFree_iff.mp ⟨hmem, of_decide_eq_true hfree⟩).2⟩
  · rw [firstValidQuorum_eq_find?] at hfound
    obtain ⟨hfree, before, after, hsplit, hbefore⟩ := List.find?_eq_some_iff_append.mp hfound
    have hmem : positions ∈ choices size (List.range stamps.length) := by
      rw [hsplit]
      exact List.mem_append_right before List.mem_cons_self
    obtain ⟨hsorted, h⟩ :=
      mem_choices_and_conflictFree_iff.mp ⟨hmem, of_decide_eq_true hfree⟩
    refine ⟨hsorted, h, fun other hsorted' h' => ?_⟩
    obtain ⟨hmem', hfree'⟩ := mem_choices_and_conflictFree_iff.mpr ⟨hsorted', h'⟩
    have hchoices := sorted_choices (List.pairwise_lt_range (n := stamps.length)) size
    rw [hsplit] at hmem' hchoices
    rcases List.mem_append.mp hmem' with hin | hin
    · -- those before it are not conflict-free
      have hnot := hbefore other hin
      rw [decide_eq_true hfree'] at hnot
      cases hnot
    rcases List.mem_cons.mp hin with rfl | hin
    · exact le_rfl
    · have hafter := (List.pairwise_append.mp hchoices).2.1
      exact le_of_lt ((List.pairwise_cons.mp hafter).1 other hin)
  · refine ⟨_, _, Subsets.take_eq hfit _, ?_, ?_⟩
    · rw [min_self, Subsets.next, Subsets.choose, Subsets.count_eq hfit]
      exact if_pos le_rfl
    · rw [firstValidQuorum_eq_find?, List.take_of_length_le]
      rw [length_choices, List.length_range]

/-- The first two of four messages have one sender, and the third one knows that sender under a later
epoch. So the first and the last one are the first valid quorum, the third of six pairs. -/
theorem firstValidQuorum_exact_of_four : ∃ stamps : List Stamp,
    stamps = [⟨0, ⟨[0, 0, 0]⟩⟩, ⟨0, ⟨[0, 2, 0]⟩⟩, ⟨1, ⟨[1, 0, 0]⟩⟩, ⟨2, ⟨[0, 0, 0]⟩⟩] ∧
    firstValidQuorum stamps 2 = some [0, 3] ∧ QuorumAt stamps 2 [0, 3] ∧
    (∀ other, other.Pairwise (· < ·) → QuorumAt stamps 2 other → [0, 3] ≤ other) ∧
    ∃ subsets rest, (Subsets.choose 4 2).take 6 = .ok (subsets, rest) ∧ rest.next = .ok none ∧
      subsets.find? (fun positions => ConflictFree (stampsAt stamps positions)) = some [0, 3] := by
  have hfound : firstValidQuorum
      [⟨0, ⟨[0, 0, 0]⟩⟩, ⟨0, ⟨[0, 2, 0]⟩⟩, ⟨1, ⟨[1, 0, 0]⟩⟩, ⟨2, ⟨[0, 0, 0]⟩⟩] 2 = some [0, 3] := by
    decide
  obtain ⟨-, hfirst, henumerated⟩ := firstValidQuorum_exact
    [⟨0, ⟨[0, 0, 0]⟩⟩, ⟨0, ⟨[0, 2, 0]⟩⟩, ⟨1, ⟨[1, 0, 0]⟩⟩, ⟨2, ⟨[0, 0, 0]⟩⟩] 2
  obtain ⟨-, hquorum, hleast⟩ := hfirst _ hfound
  obtain ⟨subsets, rest, htake, hend, hfind⟩ := henumerated (Or.inr (by decide))
  exact ⟨_, rfl, hfound, hquorum, hleast, subsets, rest, htake, hend, hfind.trans hfound⟩

end ReplicatedLog
