import ReplicatedLog.Proofs.Roles
import ReplicatedLog.Proofs.Rounds
import Mathlib.Data.List.Perm.Subperm

/-!
# Ballots

The messages that were sent, read as a record of ballots: what was proposed in which round
(`Proposed`), who voted for it (`Voted`), and when a quorum of votes chose it (`Chosen`). A proposal
is `Backed` if it agrees with a quorum of promises for its round: none of them reports a vote for the
slot, or the proposed value is that of a reported vote of the highest round.

The main result is `Ballot.Sound.value_eq_of_chosen`: once a value is chosen for a slot, every
proposal for the slot in that round or in a higher one is for that value. What it needs of the record
is collected in `Ballot.Sound`, but for the step from a promise to the votes of its sender,
`Ballot.Shown`: the record of a run may lack it, since an acceptor forgets old votes.
-/

namespace ReplicatedLog

/-- Somebody asked for promises of a round, for the slots after `first`. -/
def Asked (sent : List Outgoing) (r : Round) (first : Nat) : Prop :=
  ∃ sender, Said sent (.prepare ⟨sender, r, first⟩)

/-- A value was proposed for a slot in a round. -/
def Proposed (sent : List Outgoing) (r : Round) (slot : Nat) (v : Value) : Prop :=
  ∃ sender epochs, Said sent (.accept ⟨sender, r, slot, v, epochs⟩)

/-- An acceptor voted for a value for a slot in a round. -/
def Voted (sent : List Outgoing) (i : Nat) (r : Round) (slot : Nat) (v : Value) : Prop :=
  ∃ epochs, Said sent (.learn ⟨i, slot, r, v, epochs⟩)

/-- A quorum of acceptors voted for a value for a slot in a round. -/
def Chosen (q : Nat) (sent : List Outgoing) (r : Round) (slot : Nat) (v : Value) : Prop :=
  ∃ Q : List Nat, Q.Nodup ∧ q ≤ Q.length ∧ ∀ i ∈ Q, Voted sent i r slot v

/-- There is a quorum of promises for the round that report no vote for the slot, or of whose reports
for the slot one of the highest round is for the value. -/
def Backed (q : Nat) (sent : List Outgoing) (r : Round) (slot : Nat) (v : Value) : Prop :=
  ∃ P : List Promise, (P.map Promise.sender).Nodup ∧ q ≤ P.length ∧
    (∀ m ∈ P, Said sent (.promise m) ∧ m.round = r) ∧
    ((∀ rep ∈ P.flatMap Promise.reports, rep.slot ≠ slot) ∨
      ∃ rep ∈ P.flatMap Promise.reports, rep.slot = slot ∧ rep.value = v ∧
        ∀ rep' ∈ P.flatMap Promise.reports, rep'.slot = slot → rep'.round ≤ rep.round)

section Append

variable {sent : List Outgoing} {q i first slot : Nat} {r : Round} {v : Value}

theorem Asked.append (h : Asked sent r first) (out : List Outgoing) :
    Asked (sent ++ out) r first :=
  h.imp fun _ h => h.append out

theorem Proposed.append (h : Proposed sent r slot v) (out : List Outgoing) :
    Proposed (sent ++ out) r slot v :=
  h.imp fun _ h => h.imp fun _ h => h.append out

theorem Voted.append (h : Voted sent i r slot v) (out : List Outgoing) :
    Voted (sent ++ out) i r slot v :=
  h.imp fun _ h => h.append out

theorem Chosen.append (h : Chosen q sent r slot v) (out : List Outgoing) :
    Chosen q (sent ++ out) r slot v := by
  obtain ⟨Q, hnodup, hlength, hvoted⟩ := h
  exact ⟨Q, hnodup, hlength, fun i hi => (hvoted i hi).append out⟩

theorem Backed.append (h : Backed q sent r slot v) (out : List Outgoing) :
    Backed q (sent ++ out) r slot v := by
  obtain ⟨P, hnodup, hlength, hsaid, hreports⟩ := h
  exact ⟨P, hnodup, hlength, fun m hm => ⟨(hsaid m hm).1.append out, (hsaid m hm).2⟩, hreports⟩

end Append

/-- Two lists of numbers below `n` that together are longer than `n` have a member in common. -/
theorem exists_mem_both {n : Nat} {Q P : List Nat} (hQ : Q.Nodup) (hP : P.Nodup)
    (hQn : ∀ i ∈ Q, i < n) (hPn : ∀ i ∈ P, i < n) (hlength : n < Q.length + P.length) :
    ∃ i, i ∈ Q ∧ i ∈ P := by
  by_contra hdisjoint
  have hnodup : (Q ++ P).Nodup :=
    List.nodup_append.mpr ⟨hQ, hP, fun i hi j hj heq => hdisjoint ⟨i, hi, heq ▸ hj⟩⟩
  have hsubset : Q ++ P ⊆ List.range n := by
    intro i hi
    rw [List.mem_range]
    exact (List.mem_append.mp hi).elim (hQn i) (hPn i)
  have hle := (hnodup.subperm hsubset).length_le
  rw [List.length_append, List.length_range] at hle
  omega

namespace Ballot

/-- What the choice of a value for a slot depends on: among `n` acceptors, with quorums of `q`. -/
structure Sound (n q : Nat) (sent : List Outgoing) (slot : Nat) : Prop where
  /-- In a round no two values are proposed. -/
  unique : ∀ r v v', Proposed sent r slot v → Proposed sent r slot v' → v' = v
  /-- A proposal agrees with a quorum of promises. -/
  backed : ∀ r v, Proposed sent r slot v → Backed q sent r slot v
  /-- Promises were asked for all slots that are proposed for. -/
  asked_below : ∀ r v first, Proposed sent r slot v → Asked sent r first → first < slot
  /-- Only what was proposed is voted for. -/
  proposed_of_voted : ∀ i r v, Voted sent i r slot v → i < n ∧ Proposed sent r slot v
  /-- What a promise reports are earlier votes of its sender. -/
  reported : ∀ m, Said sent (.promise m) → m.sender < n ∧ ∀ rep ∈ m.reports,
    rep.round < m.round ∧ Voted sent m.sender rep.round rep.slot rep.value

/-- A promise that was asked for the slot does not hide a vote for it in an earlier round `r`: it
reports that vote or a later one. -/
def Shown (sent : List Outgoing) (r : Round) (slot : Nat) : Prop :=
  ∀ m, Said sent (.promise m) → ∃ first, Asked sent m.round first ∧
    (first < slot → ∀ v, Voted sent m.sender r slot v → r < m.round →
      ∃ rep ∈ m.reports, rep.slot = slot ∧ r ≤ rep.round)

variable {n q : Nat} {sent : List Outgoing} {slot : Nat}

/-- A proposal in a round above one in which a value was chosen repeats a proposal from in between:
one of the quorum of promises comes from an acceptor that voted for the chosen value. -/
theorem Sound.exists_between (h : Sound n q sent slot) (hq : n < q + q) {r r' : Round}
    {v v' : Value} (hshown : Shown sent r slot) (hchosen : Chosen q sent r slot v)
    (hproposed : Proposed sent r' slot v') (hlt : r < r') :
    ∃ r'', r ≤ r'' ∧ r'' < r' ∧ Proposed sent r'' slot v' := by
  obtain ⟨Q, hQ, hQlength, hvoted⟩ := hchosen
  obtain ⟨P, hP, hPlength, hsaid, hreports⟩ := h.backed r' v' hproposed
  have hPn : ∀ i ∈ P.map Promise.sender, i < n := by
    intro i hi
    obtain ⟨m, hm, rfl⟩ := List.mem_map.mp hi
    exact (h.reported m (hsaid m hm).1).1
  obtain ⟨i, hiQ, hiP⟩ := exists_mem_both hQ hP
    (fun i hi => (h.proposed_of_voted i r v (hvoted i hi)).1) hPn (by rw [List.length_map]; omega)
  obtain ⟨m, hm, rfl⟩ := List.mem_map.mp hiP
  obtain ⟨hpromise, hround⟩ := hsaid m hm
  obtain ⟨first, hasked, hreported⟩ := hshown m hpromise
  have hfirst := h.asked_below r' v' first hproposed (hround ▸ hasked)
  obtain ⟨rep, hrep, hslot, hle⟩ := hreported hfirst v (hvoted _ hiQ) (hround ▸ hlt)
  have hmem : rep ∈ P.flatMap Promise.reports := List.mem_flatMap.mpr ⟨m, hm, hrep⟩
  rcases hreports with hnone | ⟨top, htop, htopslot, rfl, hmax⟩
  · exact absurd hslot (hnone rep hmem)
  · obtain ⟨m', hm', htop⟩ := List.mem_flatMap.mp htop
    obtain ⟨hpromise', hround'⟩ := hsaid m' hm'
    obtain ⟨hbelow, hvote⟩ := (h.reported m' hpromise').2 top htop
    rw [htopslot] at hvote
    exact ⟨top.round, hle.trans (hmax rep hmem hslot), hround' ▸ hbelow,
      (h.proposed_of_voted _ _ _ hvote).2⟩

/-- **Stability of choices**: once a value is chosen for a slot, it is the only one that is proposed
for the slot in that round and in all higher ones. -/
theorem Sound.value_eq_of_chosen (h : Sound n q sent slot) (hq : n < q + q) {r r' : Round}
    {v v' : Value} (hshown : Shown sent r slot) (hchosen : Chosen q sent r slot v)
    (hproposed : Proposed sent r' slot v') (hle : r ≤ r') : v' = v := by
  -- by induction on the round of the proposal: it repeats a proposal of a lower round
  induction r' using WellFoundedLT.induction with
  | ind r' ih =>
    rcases eq_or_lt_of_le hle with rfl | hlt
    · obtain ⟨Q, -, hlength, hvoted⟩ := hchosen
      obtain ⟨i, hi⟩ := List.exists_mem_of_length_pos (by omega : 0 < Q.length)
      exact h.unique r v v' (h.proposed_of_voted i r v (hvoted i hi)).2 hproposed
    · obtain ⟨r'', hle', hlt', hproposed'⟩ := h.exists_between hq hshown hchosen hproposed hlt
      exact ih r'' hlt' hproposed' hle'

/-- Two values that are chosen for a slot are the same. -/
theorem Sound.eq_of_chosen (h : Sound n q sent slot) (hq : n < q + q) {r r' : Round}
    {v v' : Value} (hshown : ∀ r, Shown sent r slot) (hchosen : Chosen q sent r slot v)
    (hchosen' : Chosen q sent r' slot v') : v' = v := by
  have hproposed : ∀ r v, Chosen q sent r slot v → Proposed sent r slot v := by
    rintro r v ⟨Q, -, hlength, hvoted⟩
    obtain ⟨i, hi⟩ := List.exists_mem_of_length_pos (by omega : 0 < Q.length)
    exact (h.proposed_of_voted i r v (hvoted i hi)).2
  rcases le_total r r' with hle | hle
  · exact h.value_eq_of_chosen hq (hshown r) hchosen (hproposed r' v' hchosen') hle
  · exact (h.value_eq_of_chosen hq (hshown r') hchosen' (hproposed r v hchosen) hle).symm

end Ballot

end ReplicatedLog
