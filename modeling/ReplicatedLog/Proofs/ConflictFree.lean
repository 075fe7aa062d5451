import ReplicatedLog.Mode
import ReplicatedLog.Proofs.SubsetOrder

/-!
# The search for a valid quorum

A valid quorum is a choice of enough messages no two of which conflict. The search for one goes through
the choices in order (`firstConflictFree_eq_find?`), so it finds a choice exactly when there is one
(`isSome_firstConflictFree_iff`), of promises or votes in particular
(`isSome_firstValidQuorum_map_iff`).
-/

namespace ReplicatedLog

/-- The views name the same epoch of every replica; entries beyond an end count as zero. -/
def EpochVector.Agrees (v w : EpochVector) : Prop := ∀ i, v.get i = w.get i

/-- Views agree if they do up to the end of the longer one. -/
theorem EpochVector.agrees_iff {v w : EpochVector} :
    v.Agrees w ↔ ∀ i < max v.entries.length w.entries.length, v.get i = w.get i := by
  refine ⟨fun h i _ => h i, fun h i => ?_⟩
  by_cases hi : i < max v.entries.length w.entries.length
  · exact h i hi
  · have hv : v.entries[i]? = none := List.getElem?_eq_none (by omega)
    have hw : w.entries[i]? = none := List.getElem?_eq_none (by omega)
    rw [EpochVector.get, EpochVector.get, List.getD_eq_getElem?_getD, List.getD_eq_getElem?_getD, hv, hw]

instance (v w : EpochVector) : Decidable (v.Agrees w) := decidable_of_iff _ EpochVector.agrees_iff.symm

/-- No two of the messages conflict. -/
def ConflictFree (stamps : List Stamp) : Prop := stamps.Pairwise fun a b => a.conflicts b = false

instance : DecidablePred ConflictFree := fun stamps =>
  inferInstanceAs (Decidable (stamps.Pairwise fun a b => a.conflicts b = false))

/-! ### The first choice in order -/

/-- The candidates go together, and with the stamps already chosen. -/
def Goes (chosen : List Stamp) (c : List (Nat × Stamp)) : Prop :=
  ConflictFree (c.map Prod.snd) ∧ ∀ s ∈ c.map Prod.snd, ∀ t ∈ chosen, s.conflicts t = false

instance (chosen : List Stamp) : DecidablePred (Goes chosen) := fun c => by
  unfold Goes
  infer_instance

/-- A candidate that conflicts with none of those chosen counts as chosen for those after it. -/
theorem goes_cons {chosen : List Stamp} {position : Nat} {stamp : Stamp} {c : List (Nat × Stamp)} :
    Goes chosen ((position, stamp) :: c) ↔
      chosen.any stamp.conflicts = false ∧ Goes (stamp :: chosen) c := by
  unfold Goes ConflictFree
  rw [List.map_cons, List.pairwise_cons, List.any_eq_false]
  constructor
  · rintro ⟨⟨hfirst, hfree⟩, hchosen⟩
    refine ⟨fun t ht => ?_, hfree, fun s hs t ht => ?_⟩
    · simp [hchosen stamp List.mem_cons_self t ht]
    · rcases List.mem_cons.mp ht with rfl | ht
      · rw [Stamp.conflicts_comm]
        exact hfirst s hs
      · exact hchosen s (List.mem_cons_of_mem _ hs) t ht
  · rintro ⟨hany, hfree, hchosen⟩
    refine ⟨⟨fun s hs => ?_, hfree⟩, fun s hs t ht => ?_⟩
    · rw [Stamp.conflicts_comm]
      exact hchosen s hs stamp List.mem_cons_self
    · rcases List.mem_cons.mp hs with rfl | hs
      · simpa using hany t ht
      · exact hchosen s hs t (List.mem_cons_of_mem _ ht)

/-- The first choice in order has the first candidate, if one with it goes; otherwise it is the first
one without it. -/
theorem find?_choices_cons {chosen : List Stamp} {position size : Nat} {stamp : Stamp}
    {rest : List (Nat × Stamp)} :
    (choices (size + 1) ((position, stamp) :: rest)).find? (Goes chosen ·) =
      ((if chosen.any stamp.conflicts then none
        else (choices size rest).find? (Goes (stamp :: chosen) ·)).map ((position, stamp) :: ·)).or
        ((choices (size + 1) rest).find? (Goes chosen ·)) := by
  rw [choices_succ_cons, List.find?_append, List.find?_map]
  congr 2
  split
  · rename_i hany
    rw [List.find?_eq_none]
    intro c _
    simp [goes_cons, hany]
  · rename_i hany
    congr 1
    funext c
    simp [goes_cons, hany]

/-- The search goes through the choices in order. -/
theorem firstConflictFree_eq_find? {chosen : List Stamp} {candidates : List (Nat × Stamp)}
    {size : Nat} : firstConflictFree chosen candidates size =
      ((choices size candidates).find? (Goes chosen ·)).map (List.map Prod.fst) := by
  fun_induction firstConflictFree chosen candidates size with
  | case1 candidates chosen => simp [Goes, ConflictFree]
  | case2 chosen size => simp
  | case3 chosen position stamp rest size hshort =>
    have hnone : choices (size + 1) ((position, stamp) :: rest) = [] := by
      rw [← List.length_eq_zero_iff, length_choices]
      exact Nat.choose_eq_zero_of_lt (Nat.succ_lt_succ hshort)
    rw [hnone]
    rfl
  | case4 chosen position stamp rest size hshort withFirst positions hfirst ih =>
    rw [find?_choices_cons]
    by_cases hany : chosen.any stamp.conflicts = true
    · rw [show withFirst = none from if_pos hany] at hfirst
      cases hfirst
    · rw [show withFirst = _ from if_neg hany, ih] at hfirst
      obtain ⟨c, hc, rfl⟩ := Option.map_eq_some_iff.mp hfirst
      rw [if_neg hany, hc]
      rfl
  | case5 chosen position stamp rest size hshort withFirst hfirst ih₁ ih₂ =>
    rw [find?_choices_cons, ih₂]
    by_cases hany : chosen.any stamp.conflicts = true
    · rw [if_pos hany]
      rfl
    · rw [show withFirst = _ from if_neg hany, ih₁, Option.map_eq_none_iff] at hfirst
      rw [if_neg hany, hfirst]
      rfl

/-- A choice of `size` of the messages that conflict neither with each other nor with those already
chosen. -/
structure Completes (chosen stamps : List Stamp) (size : Nat) (Q : List Stamp) : Prop where
  /-- It is a choice from the messages. -/
  sublist : Q.Sublist stamps
  /-- It has the size. -/
  length_eq : Q.length = size
  /-- No two of it conflict. -/
  conflictFree : ConflictFree Q
  /-- None of it conflicts with those chosen. -/
  compatible : ∀ s ∈ Q, ∀ t ∈ chosen, s.conflicts t = false

/-- The search finds a choice exactly when there is one. -/
theorem isSome_firstConflictFree_iff {chosen : List Stamp} {candidates : List (Nat × Stamp)}
    {size : Nat} : (firstConflictFree chosen candidates size).isSome = true ↔
      ∃ Q, Completes chosen (candidates.map Prod.snd) size Q := by
  rw [firstConflictFree_eq_find?, Option.isSome_map, List.find?_isSome]
  constructor
  · rintro ⟨c, hc, hgoes⟩
    obtain ⟨hsub, hlength⟩ := mem_choices.mp hc
    obtain ⟨hfree, hcompatible⟩ := of_decide_eq_true hgoes
    exact ⟨c.map Prod.snd, hsub.map _, (List.length_map _).trans hlength, hfree, hcompatible⟩
  · rintro ⟨_, hsub, hlength, hfree, hcompatible⟩
    obtain ⟨c, hc, rfl⟩ := List.sublist_map_iff.mp hsub
    rw [List.length_map] at hlength
    exact ⟨c, mem_choices.mpr ⟨hc, hlength⟩, decide_eq_true ⟨hfree, hcompatible⟩⟩

/-! ### Messages -/

/-- Two messages go together if they have different senders, and neither sender knows the other under a
later epoch than the other claims. -/
theorem Stamp.conflicts_eq_false_iff {a b : Stamp} : a.conflicts b = false ↔
    a.sender ≠ b.sender ∧ a.epochs.get b.sender ≤ b.ownEpoch ∧
      b.epochs.get a.sender ≤ a.ownEpoch := by
  simp [conflicts]

/-- A valid quorum of stamped messages is found exactly when there is one. -/
theorem isSome_firstValidQuorum_map_iff {α : Type} {stamp : α → Stamp} {quorum : Nat}
    {messages : List α} : (firstValidQuorum (messages.map stamp) quorum).isSome = true ↔
      ∃ Q : List α, Q.Sublist messages ∧ Q.length = quorum ∧
        Q.Pairwise fun a b => (stamp a).conflicts (stamp b) = false := by
  unfold firstValidQuorum
  rw [isSome_firstConflictFree_iff, List.map_snd_zip (by simp)]
  constructor
  · rintro ⟨_, hsub, hlength, hfree, -⟩
    obtain ⟨Q, hQ, rfl⟩ := List.sublist_map_iff.mp hsub
    rw [List.length_map] at hlength
    exact ⟨Q, hQ, hlength, List.pairwise_map.mp hfree⟩
  · rintro ⟨Q, hsub, hlength, hfree⟩
    exact ⟨Q.map stamp, hsub.map _, (List.length_map _).trans hlength,
      List.pairwise_map.mpr hfree, by simp⟩

/-- Enough messages of different senders whose views agree are a valid quorum. -/
theorem isSome_firstValidQuorum_of_agrees {epochs : EpochVector} {stamps : List Stamp} {q : Nat}
    (hviews : ∀ s ∈ stamps, s.epochs.Agrees epochs) (hnodup : (stamps.map Stamp.sender).Nodup)
    (hlength : q ≤ stamps.length) : (firstValidQuorum stamps q).isSome = true := by
  unfold firstValidQuorum
  rw [isSome_firstConflictFree_iff, List.map_snd_zip (by simp)]
  refine ⟨stamps.take q, List.take_sublist q stamps, by simpa using hlength, ?_, by simp⟩
  have hsenders : stamps.Pairwise fun a b => a.sender ≠ b.sender := List.pairwise_map.mp hnodup
  refine ((hsenders.imp_of_mem ?_).sublist (List.take_sublist q stamps) : _)
  intro a b ha hb hne
  have hview : ∀ i, a.epochs.get i = b.epochs.get i :=
    fun i => (hviews a ha i).trans (hviews b hb i).symm
  refine Stamp.conflicts_eq_false_iff.mpr ⟨hne, ?_, ?_⟩
  · exact Nat.le_of_eq (hview b.sender)
  · exact Nat.le_of_eq (hview a.sender).symm

/-- So are enough messages of different senders that carry the same view. -/
theorem isSome_firstValidQuorum {epochs : EpochVector} {stamps : List Stamp} {q : Nat}
    (hepochs : ∀ s ∈ stamps, s.epochs = epochs) (hnodup : (stamps.map Stamp.sender).Nodup)
    (hlength : q ≤ stamps.length) : (firstValidQuorum stamps q).isSome = true :=
  isSome_firstValidQuorum_of_agrees (fun s hs i => by rw [hepochs s hs]) hnodup hlength

/-- In epoch-aware mode promises let a leader go on exactly when there is a valid quorum among them. -/
theorem Mode.quorumOfPromises_ne_none_iff {promises : List Promise} {quorum : Nat} :
    epochAware.quorumOfPromises promises quorum ≠ none ↔
      ∃ Q : List Promise, Q.Sublist promises ∧ Q.length = quorum ∧
        Q.Pairwise fun a b => a.stamp.conflicts b.stamp = false := by
  rw [← isSome_firstValidQuorum_map_iff, Option.isSome_iff_ne_none]
  constructor
  · intro h
    have henough := le_length_of_quorumOfPromises h
    rwa [quorumOfPromises, if_pos henough] at h
  · intro h
    obtain ⟨Q, hsub, hlength, -⟩ :=
      isSome_firstValidQuorum_map_iff.mp (Option.isSome_iff_ne_none.mpr h)
    rwa [quorumOfPromises, if_pos (hlength ▸ hsub.length_le)]

/-- Among the votes there are `quorum` no two of which conflict. -/
def ValidQuorum (quorum : Nat) (votes : List Learn) : Prop :=
  ∃ Q : List Learn, Q.Sublist votes ∧ Q.length = quorum ∧
    Q.Pairwise fun a b => a.stamp.conflicts b.stamp = false

/-- A valid quorum is found exactly when there is one. -/
theorem isSome_firstValidQuorum_iff {quorum : Nat} {votes : List Learn} :
    (firstValidQuorum (votes.map Learn.stamp) quorum).isSome = true ↔
      ValidQuorum quorum votes := isSome_firstValidQuorum_map_iff

instance (quorum : Nat) (votes : List Learn) : Decidable (ValidQuorum quorum votes) :=
  decidable_of_iff _ isSome_firstValidQuorum_iff

end ReplicatedLog
