import Mathlib.Data.Finset.Card
import Mathlib.Data.Finset.Pairwise
import Mathlib.Order.Lattice.Nat
import ReplicatedLog.Proofs.ConflictFree
import ReplicatedLog.Proofs.Extent
import ReplicatedLog.Proofs.Tallies

/-!
# The order of votes

What a learner delivers does not depend on the order in which votes arrive, nor on how often, as long as
the votes for each slot are of one round, for one value and from different senders (`Unanimous`). Every
such vote is counted as long as its slot is not learned (`Tally.Holds`), so a slot is learned exactly when
there are enough votes for it among those that have arrived (`Tally.Reflects`): whether or not their
views were searched for conflicts by then, it is the existence of a valid quorum that decides, and more
votes do not spoil one. When all have arrived, the learner has delivered the slots up to the first that
lacks votes. This is `delivers_in_any_order`.
-/

namespace ReplicatedLog

open Function

/-! ### Enough votes -/

/-- The votes for one slot are of one round, for one value and from different senders. -/
structure Unanimous (votes : Finset Learn) : Prop where
  /-- They are of one round. -/
  round_eq : ∀ a ∈ votes, ∀ b ∈ votes, a.slot = b.slot → a.round = b.round
  /-- They are for one value. -/
  value_eq : ∀ a ∈ votes, ∀ b ∈ votes, a.slot = b.slot → a.value = b.value
  /-- No two are from one sender. -/
  eq_of_sender_eq : ∀ a ∈ votes, ∀ b ∈ votes, a.slot = b.slot → a.sender = b.sender → a = b

/-- There are enough votes for a slot: as many as a quorum, of which in epoch-aware mode no two may
conflict. -/
def Enough (mode : Mode) (quorum : Nat) (votes : Finset Learn) (slot : Nat) : Prop :=
  match mode with
  | .plain => quorum ≤ (votes.filter fun vote => vote.slot = slot).card
  | .epochAware => ∃ Q ⊆ votes.filter fun vote => vote.slot = slot, Q.card = quorum ∧
      ∀ a ∈ Q, ∀ b ∈ Q, a ≠ b → a.stamp.conflicts b.stamp = false

instance (mode : Mode) (quorum : Nat) (votes : Finset Learn) :
    DecidablePred (Enough mode quorum votes) := fun slot => by
  unfold Enough
  split <;> infer_instance

variable {mode : Mode} {quorum slot : Nat} {own : EpochVector} {seen votes : Finset Learn}
  {m : Learn} {v : Value}

theorem Enough.mono (h : Enough mode quorum seen slot) (hsub : seen ⊆ votes) :
    Enough mode quorum votes slot := by
  have hfilter := Finset.filter_subset_filter (fun vote : Learn => vote.slot = slot) hsub
  cases mode with
  | plain => exact le_trans h (Finset.card_le_card hfilter)
  | epochAware =>
    obtain ⟨Q, hQ, hQ'⟩ := h
    exact ⟨Q, hQ.trans hfilter, hQ'⟩

/-- A slot with enough votes has one, if a quorum needs any. -/
theorem Enough.exists_mem (h : Enough mode quorum votes slot) (hquorum : 0 < quorum) :
    ∃ vote ∈ votes, vote.slot = slot := by
  have hle : quorum ≤ (votes.filter fun vote => vote.slot = slot).card := by
    cases mode with
    | plain => exact h
    | epochAware =>
      obtain ⟨Q, hQ, hcard, -⟩ := h
      exact hcard ▸ Finset.card_le_card hQ
  obtain ⟨vote, hvote⟩ := Finset.card_pos.mp (hquorum.trans_le hle)
  exact ⟨vote, Finset.mem_filter.mp hvote⟩

/-- A vote for another slot makes no difference. -/
theorem enough_insert_iff (hslot : m.slot ≠ slot) :
    Enough mode quorum (insert m seen) slot ↔ Enough mode quorum seen slot := by
  unfold Enough
  rw [Finset.filter_insert, if_neg hslot]

/-- There are enough votes for every slot up to `last`. -/
def EnoughUpTo (mode : Mode) (quorum : Nat) (votes : Finset Learn) (last : Nat) : Prop :=
  ∀ slot, 1 ≤ slot → slot ≤ last → Enough mode quorum votes slot

/-- The greatest number up to which there are enough votes for every slot. -/
theorem exists_isGreatest_enough (mode : Mode) (hquorum : 0 < quorum) (votes : Finset Learn) :
    ∃ last, IsGreatest {last | EnoughUpTo mode quorum votes last} last := by
  have hbounded : BddAbove {last | EnoughUpTo mode quorum votes last} := by
    refine ⟨votes.sup Learn.slot, fun last hlast => ?_⟩
    by_cases hpos : 1 ≤ last
    · obtain ⟨vote, hvote, hslot⟩ := (hlast last hpos le_rfl).exists_mem hquorum
      exact hslot ▸ Finset.le_sup hvote
    · omega
  have hnonempty : Set.Nonempty {last | EnoughUpTo mode quorum votes last} :=
    ⟨0, fun slot hpos hle => by omega⟩
  exact ⟨_, Nat.sSup_mem hnonempty hbounded, fun last hlast => le_csSup hbounded hlast⟩

theorem not_enough_of_isGreatest {last : Nat}
    (hlast : IsGreatest {last | EnoughUpTo mode quorum votes last} last) :
    ¬ Enough mode quorum votes (last + 1) := by
  intro henough
  have hle : last + 1 ≤ last := hlast.2 fun slot hpos hslot => by
    rcases Nat.le_succ_iff.mp hslot with hslot | rfl
    · exact hlast.1 slot hpos hslot
    · exact henough
  omega

/-- For every slot there is the value of the votes for it. -/
theorem exists_value_of_unanimous (h : Unanimous votes) :
    ∃ value : Nat → Value, ∀ vote ∈ votes, value vote.slot = vote.value := by
  have hslot : ∀ slot, ∃ v, ∀ vote ∈ votes, vote.slot = slot → v = vote.value := by
    intro slot
    by_cases hsome : ∃ vote ∈ votes, vote.slot = slot
    · obtain ⟨first, hfirst, rfl⟩ := hsome
      exact ⟨first.value, fun vote hvote heq => h.value_eq first hfirst vote hvote heq.symm⟩
    · exact ⟨.noop, fun vote hvote heq => absurd ⟨vote, hvote, heq⟩ hsome⟩
  choose value hvalue using hslot
  exact ⟨value, fun vote hvote => hvalue vote.slot vote hvote rfl⟩

/-- Enough votes have arrived for a slot, and the value is theirs. -/
def Settled (mode : Mode) (quorum : Nat) (seen : Finset Learn) (slot : Nat) (v : Value) : Prop :=
  Enough mode quorum seen slot ∧ ∃ vote ∈ seen, vote.slot = slot ∧ vote.value = v

theorem Settled.mono (h : Settled mode quorum seen slot v) (hsub : seen ⊆ votes) :
    Settled mode quorum votes slot v :=
  ⟨h.1.mono hsub, h.2.imp fun _ hvote => hvote.imp_left fun hmem => hsub hmem⟩

/-- A valid quorum of votes in a list is a set of votes from it. -/
theorem validQuorum_iff_exists_finset {xs : List Learn} (hnodup : xs.Nodup) :
    ValidQuorum quorum xs ↔ ∃ Q ⊆ xs.toFinset, Q.card = quorum ∧
      ∀ a ∈ Q, ∀ b ∈ Q, a ≠ b → a.stamp.conflicts b.stamp = false := by
  have hsymm : Std.Symm fun a b : Learn => a.stamp.conflicts b.stamp = false :=
    ⟨fun a b h => (Stamp.conflicts_comm _ _).trans h⟩
  constructor
  · rintro ⟨Q, hsub, hlength, hfree⟩
    have hnodup' := hnodup.sublist hsub
    refine ⟨Q.toFinset, fun vote hvote => ?_, ?_, ?_⟩
    · exact List.mem_toFinset.mpr (hsub.subset (List.mem_toFinset.mp hvote))
    · rw [List.toFinset_card_of_nodup hnodup', hlength]
    · exact fun a ha b hb =>
        hfree.forall (List.mem_toFinset.mp ha) (List.mem_toFinset.mp hb)
  · rintro ⟨Q, hsub, hcard, hfree⟩
    have hnodup' : (xs.filter (· ∈ Q)).Nodup := hnodup.sublist List.filter_sublist
    have hQ : (xs.filter (· ∈ Q)).toFinset = Q := by
      ext vote
      rw [List.mem_toFinset, List.mem_filter, decide_eq_true_eq]
      exact ⟨fun h => h.2, fun h => ⟨List.mem_toFinset.mp (hsub h), h⟩⟩
    refine ⟨xs.filter (· ∈ Q), List.filter_sublist, ?_, ?_⟩
    · rw [← List.toFinset_card_of_nodup hnodup', hQ, hcard]
    · exact List.pairwise_of_coe_toFinset_pairwise
        (fun a ha b hb => hfree a (hQ ▸ ha) b (hQ ▸ hb)) hnodup'

/-! ### Tallies -/

namespace Tally

variable {t t' : Tally}

/-- The votes for the slot that have arrived are those that are counted. -/
structure Holds (mode : Mode) (own : EpochVector) (seen : Finset Learn) (slot : Nat) (t : Tally) :
    Prop where
  /-- They are counted. -/
  mem_iff : ∀ vote, vote ∈ t.votes ↔ vote ∈ seen ∧ vote.slot = slot
  /-- They belong together. -/
  uniform : t.Uniform slot
  /-- Without a dispute all of them agree with the learner's view. -/
  undisputed : t.disputed = false → ∀ vote ∈ t.votes, mode.disputes own vote = false
  /-- Without votes there is no round yet. -/
  round_eq : t.votes = [] → t.round = .bottom

theorem holds_default (mode : Mode) (own : EpochVector) (slot : Nat) :
    Holds mode own ∅ slot default where
  mem_iff vote := by simp [default]
  uniform := uniform_default slot
  undisputed _ vote hvote := absurd hvote List.not_mem_nil
  round_eq _ := rfl

theorem Holds.congr (h : t.Holds mode own seen slot) (decided : Bool) :
    Holds mode own seen slot { t with decided } :=
  ⟨h.mem_iff, h.uniform.congr _ _, h.undisputed, h.round_eq⟩

/-- A vote for another slot makes no difference. -/
theorem Holds.more (h : t.Holds mode own seen slot) (hslot : m.slot ≠ slot) :
    t.Holds mode own (insert m seen) slot where
  mem_iff vote := by
    rw [h.mem_iff, Finset.mem_insert]
    constructor
    · exact fun hvote => ⟨Or.inr hvote.1, hvote.2⟩
    · rintro ⟨rfl | hmem, rfl⟩
      · exact absurd rfl hslot
      · exact ⟨hmem, rfl⟩
  uniform := h.uniform
  undisputed := h.undisputed
  round_eq := h.round_eq

/-- A slot is settled exactly when there are enough votes for it, whether or not a dispute made the
learner search for conflicts. -/
theorem Holds.settles_iff (h : t.Holds mode own seen slot) :
    mode.settles t.votes quorum t.disputed = true ↔ Enough mode quorum seen slot := by
  have hnodup : t.votes.Nodup := List.Nodup.of_map _ h.uniform.nodup
  have hvotes : t.votes.toFinset = seen.filter fun vote => vote.slot = slot := by
    ext vote
    rw [List.mem_toFinset, h.mem_iff, Finset.mem_filter]
  unfold Enough
  rw [← hvotes]
  cases mode with
  | plain =>
    simp only [Mode.settles, Bool.and_true, decide_eq_true_eq]
    rw [List.toFinset_card_of_nodup hnodup]
  | epochAware =>
    rw [← validQuorum_iff_exists_finset hnodup, ← isSome_firstValidQuorum_iff]
    simp only [Mode.settles, Bool.and_eq_true, decide_eq_true_eq, Bool.or_eq_true,
      Bool.not_eq_true']
    constructor
    · rintro ⟨henough, hundisputed | hfound⟩
      · -- votes that carry one view do not conflict
        have hepochs : ∀ s ∈ t.votes.map Learn.stamp, s.epochs = own := by
          intro s hs
          obtain ⟨vote, hvote, rfl⟩ := List.mem_map.mp hs
          have hagrees := h.undisputed hundisputed vote hvote
          simpa [Mode.disputes, Learn.stamp] using hagrees
        refine isSome_firstValidQuorum hepochs ?_ (by simpa using henough)
        rw [List.map_map]
        exact h.uniform.nodup
      · exact hfound
    · intro hfound
      obtain ⟨Q, hsub, hlength, -⟩ := isSome_firstValidQuorum_iff.mp hfound
      exact ⟨hlength ▸ hsub.length_le, Or.inr hfound⟩

/-- The votes that are counted are of the round of any other vote for the slot. -/
theorem Holds.round_eq_of_mem (h : t.Holds mode own seen slot) (hunanimous : Unanimous votes)
    (hsub : seen ⊆ votes) (hm : m ∈ votes) (hslot : m.slot = slot) {vote : Learn}
    (hvote : vote ∈ t.votes) : t.round = m.round := by
  obtain ⟨hmem, hslot'⟩ := (h.mem_iff vote).mp hvote
  rw [← h.uniform.round_eq vote hvote]
  exact hunanimous.round_eq vote (hsub hmem) m hm (hslot'.trans hslot.symm)

/-- A vote for the slot joins those that are counted. -/
theorem Holds.count (h : t.Holds mode own seen slot) (hunanimous : Unanimous votes)
    (hsub : seen ⊆ votes) (hm : m ∈ votes) (hslot : m.slot = slot)
    (hcount : t.count mode own m = some t') :
    t.learned = none ∧ t'.learned = none ∧ t'.Holds mode own (insert m seen) slot := by
  have huniform := h.uniform.count hslot hcount
  obtain ⟨hlearned, -, -, -, rfl⟩ := count_eq_some hcount
  have hjoined : t.joined m.round = t.votes := by
    unfold joined
    split
    · rename_i hlt
      refine (List.eq_nil_iff_forall_not_mem.mpr fun vote hvote => ?_).symm
      rw [h.round_eq_of_mem hunanimous hsub hm hslot hvote] at hlt
      exact lt_irrefl _ hlt
    · rfl
  rw [hjoined] at huniform ⊢
  refine ⟨hlearned, hlearned, fun vote => ?_, huniform, fun hundisputed vote hvote => ?_, ?_⟩
  · rw [List.mem_append, List.mem_singleton, h.mem_iff, Finset.mem_insert]
    constructor
    · rintro (⟨hmem, hvote⟩ | rfl)
      · exact ⟨Or.inr hmem, hvote⟩
      · exact ⟨Or.inl rfl, hslot⟩
    · rintro ⟨rfl | hmem, hvote⟩
      · exact Or.inr rfl
      · exact Or.inl ⟨hmem, hvote⟩
  · obtain ⟨hbefore, hdisputes⟩ := Bool.or_eq_false_iff.mp hundisputed
    rcases List.mem_append.mp hvote with hvote | hvote
    · exact h.undisputed hbefore vote hvote
    · rwa [List.mem_singleton.mp hvote]
  · simp

/-- A vote for the slot that does not count, although the slot is not learned, has arrived before. -/
theorem Holds.mem_of_count_eq_none (h : t.Holds mode own seen slot) (hunanimous : Unanimous votes)
    (hsub : seen ⊆ votes) (hm : m ∈ votes) (hslot : m.slot = slot) (hopen : t.learned = none)
    (hcount : t.count mode own m = none) : m ∈ seen := by
  rcases of_count_eq_none hcount with hlearned | hlt | ⟨vote, hvote, hdiffers⟩
  · rw [hopen] at hlearned
    cases hlearned
  · -- there is no round below that of the votes, or below the bottom one
    exfalso
    cases hvotes : t.votes with
    | nil =>
      rw [h.round_eq hvotes, Round.lt_def] at hlt
      simp [Round.bottom] at hlt
    | cons vote rest =>
      have hvote : vote ∈ t.votes := hvotes ▸ List.mem_cons_self
      rw [h.round_eq_of_mem hunanimous hsub hm hslot hvote] at hlt
      exact lt_irrefl _ hlt
  · obtain ⟨hmem, hslot'⟩ := (h.mem_iff vote).mp hvote
    have hslots := hslot'.trans hslot.symm
    rcases hdiffers with hsender | hvalue
    · rwa [← hunanimous.eq_of_sender_eq vote (hsub hmem) m hm hslots hsender]
    · exact absurd (hunanimous.value_eq vote (hsub hmem) m hm hslots) hvalue

/-- What is known about a slot is what the votes that have arrived say: it is learned, with their value,
exactly when they are enough. -/
structure Reflects (mode : Mode) (quorum : Nat) (own : EpochVector) (seen : Finset Learn)
    (slot : Nat) (t : Tally) : Prop where
  /-- Before that the votes are counted. -/
  holds : t.learned = none → t.Holds mode own seen slot
  /-- They are too few. -/
  few : t.learned = none → ¬ Enough mode quorum seen slot
  /-- A value is learned from enough votes. -/
  settled : ∀ v, t.learned = some v → Settled mode quorum seen slot v

theorem reflects_default (hquorum : 0 < quorum) (mode : Mode) (own : EpochVector) (slot : Nat) :
    Reflects mode quorum own ∅ slot default where
  holds _ := holds_default mode own slot
  few _ henough := by
    obtain ⟨vote, hvote, -⟩ := henough.exists_mem hquorum
    exact absurd hvote (Finset.notMem_empty vote)
  settled v hv := by cases hv

theorem Reflects.congr (h : t.Reflects mode quorum own seen slot) (decided : Bool) :
    Reflects mode quorum own seen slot { t with decided } :=
  ⟨fun hopen => (h.holds hopen).congr decided, h.few, h.settled⟩

theorem Reflects.more (h : t.Reflects mode quorum own seen slot) (hslot : m.slot ≠ slot) :
    t.Reflects mode quorum own (insert m seen) slot where
  holds hopen := (h.holds hopen).more hslot
  few hopen := mt (enough_insert_iff hslot).mp (h.few hopen)
  settled v hv := (h.settled v hv).mono (Finset.subset_insert m seen)

/-- **A vote that does not count makes no difference.** -/
theorem Reflects.ignore (h : t.Reflects mode quorum own seen slot) (hunanimous : Unanimous votes)
    (hsub : seen ⊆ votes) (hm : m ∈ votes) (hslot : m.slot = slot)
    (hcount : t.count mode own m = none) : t.Reflects mode quorum own (insert m seen) slot := by
  cases hlearned : t.learned with
  | none =>
    have hmem := (h.holds hlearned).mem_of_count_eq_none hunanimous hsub hm hslot hlearned hcount
    rwa [Finset.insert_eq_of_mem hmem]
  | some v =>
    have hopen : t.learned ≠ none := by simp [hlearned]
    exact ⟨fun hnone => absurd hnone hopen, fun hnone => absurd hnone hopen,
      fun v hv => (h.settled v hv).mono (Finset.subset_insert m seen)⟩

/-- **A vote that counts** makes the slot learned exactly when it is settled by it. -/
theorem Reflects.count (h : t.Reflects mode quorum own seen slot) (hunanimous : Unanimous votes)
    (hsub : seen ⊆ votes) (hm : m ∈ votes) (hslot : m.slot = slot)
    (hcount : t.count mode own m = some t') :
    (mode.settles t'.votes quorum t'.disputed = true ↔ Enough mode quorum (insert m seen) slot) ∧
    (mode.settles t'.votes quorum t'.disputed = false →
      t'.Reflects mode quorum own (insert m seen) slot) ∧
    (mode.settles t'.votes quorum t'.disputed = true →
      Reflects mode quorum own (insert m seen) slot { t' with learned := t'.candidate }) := by
  have hopen := (count_eq_some hcount).1
  obtain ⟨-, hopen', hholds⟩ := (h.holds hopen).count hunanimous hsub hm hslot hcount
  have hsettles : mode.settles t'.votes quorum t'.disputed = true ↔
      Enough mode quorum (insert m seen) slot := hholds.settles_iff
  refine ⟨hsettles, fun hunsettled => ?_, fun hsettled => ?_⟩
  · refine ⟨fun _ => hholds, fun _ henough => ?_, fun v hv => ?_⟩
    · rw [hsettles.mpr henough] at hunsettled
      cases hunsettled
    · rw [hopen'] at hv
      cases hv
  · have hcandidate := Learner.candidate_of_count hcount
    refine ⟨fun hnone => ?_, fun hnone => ?_, fun v hv => ⟨hsettles.mp hsettled, ?_⟩⟩
    · rw [show t'.candidate = none from hnone] at hcandidate
      cases hcandidate
    · rw [show t'.candidate = none from hnone] at hcandidate
      cases hcandidate
    · obtain ⟨vote, hhead, rfl⟩ := Option.map_eq_some_iff.mp (show t'.candidate = some v from hv)
      obtain ⟨hmem, hvote⟩ := (hholds.mem_iff vote).mp (List.mem_of_head? hhead)
      exact ⟨vote, hmem, hvote, rfl⟩

end Tally

/-! ### Learners -/

namespace Learner

variable {l l' : Learner} {d : Delivery} {past : Past} {log' : List (Nat × Value)} {b : Nat}

/-- What a learner that trusts nobody knows, and has delivered (`log'`), is what the votes that have
arrived say. -/
structure Reflects (mode : Mode) (quorum : Nat) (own : EpochVector) (seen : Finset Learn)
    (log' : List (Nat × Value)) (l : Learner) : Prop where
  /-- It goes by the rules. -/
  mode_eq : l.mode = mode
  /-- It needs as many votes. -/
  quorum_eq : l.quorum = quorum
  /-- It has the view of the membership. -/
  epochs_eq : l.epochs = own
  /-- It trusts nobody. -/
  leader_eq : l.leader = none
  /-- The slot that is next is not learned. -/
  next_open : (l.tally l.next).learned = none
  /-- From there on, it knows what the votes say. -/
  tallies : ∀ slot, l.next ≤ slot → (l.tally slot).Reflects mode quorum own seen slot
  /-- So it did when it delivered. -/
  settled : ∀ slot v, (slot, v) ∈ log' → Settled mode quorum seen slot v

/-- A slot that lacks votes is not learned. -/
theorem Reflects.open_of_not_enough (h : l.Reflects mode quorum own seen log') (hsub : seen ⊆ votes)
    (hslot : l.next ≤ slot) (hfew : ¬ Enough mode quorum votes slot) :
    (l.tally slot).learned = none :=
  Option.eq_none_iff_forall_ne_some.mpr fun v hv =>
    hfew (((h.tallies slot hslot).settled v hv).1.mono hsub)

/-- A learner does not get past a slot that lacks votes. -/
theorem Reflects.next_le {retention : Nat} (h : l.Reflects mode quorum own seen log')
    (hretains : l.Retains retention log') (hsub : seen ⊆ votes) (hb : 1 ≤ b)
    (hfew : ¬ Enough mode quorum votes b) : l.next ≤ b := by
  by_contra hlt
  obtain ⟨v, hmem⟩ := hretains.exists_mem hb (Nat.not_le.mp hlt)
  exact hfew ((h.settled b v hmem).1.mono hsub)

/-- When all votes have arrived, it stops before the first slot that lacks votes. -/
theorem Reflects.next_eq {retention last : Nat} (h : l.Reflects mode quorum own votes log')
    (hretains : l.Retains retention log')
    (hlast : IsGreatest {last | EnoughUpTo mode quorum votes last} last) :
    l.next = last + 1 := by
  have hle := h.next_le hretains subset_rfl (Nat.le_add_left 1 last)
    (not_enough_of_isGreatest hlast)
  have hfew := (h.tallies l.next le_rfl).few h.next_open
  have hnext_eq := hretains.next_eq
  by_contra hne
  exact hfew (hlast.1 l.next (by omega) (by omega))

/-- Then it has delivered the slots before that one, with the values of the votes. -/
theorem Reflects.log_eq {retention last : Nat} {value : Nat → Value}
    (h : l.Reflects mode quorum own votes log') (hretains : l.Retains retention log')
    (hlast : IsGreatest {last | EnoughUpTo mode quorum votes last} last)
    (hvalue : ∀ vote ∈ votes, value vote.slot = vote.value) :
    log' = (List.range' 1 last).map fun slot => (slot, value slot) := by
  have hnext := h.next_eq hretains hlast
  have hlength : log'.length = last := by
    have hnext_eq := hretains.next_eq
    omega
  have hvalues : ∀ d ∈ log', (d.1, value d.1) = d := by
    rintro ⟨slot, v⟩ hd
    obtain ⟨-, vote, hvote, rfl, rfl⟩ := h.settled slot v hd
    rw [hvalue vote hvote]
  calc log' = log'.map fun d => (d.1, value d.1) :=
        ((List.map_congr_left hvalues).trans (List.map_id _)).symm
    _ = (log'.map Prod.fst).map fun slot => (slot, value slot) := by
        rw [List.map_map]
        rfl
    _ = (List.range' 1 last).map fun slot => (slot, value slot) := by
        rw [hretains.slots, hlength]

/-- Delivering slots whose tallies reflect the votes keeps that so. -/
theorem reflects_of_delivers {tally : Nat → Tally} {delivered : List (Nat × Value)}
    (hsame : Same l l') (hleader : l'.leader = none) (hdelivers : Delivers l.next tally l' delivered)
    (hmode : l.mode = mode) (hquorum : l.quorum = quorum) (hepochs : l.epochs = own)
    (htallies : ∀ slot, l.next ≤ slot → (tally slot).Reflects mode quorum own seen slot)
    (hsettled : ∀ slot v, (slot, v) ∈ log' → Settled mode quorum seen slot v) :
    l'.Reflects mode quorum own seen (log' ++ delivered) where
  mode_eq := hsame.mode_eq.trans hmode
  quorum_eq := hsame.quorum_eq.trans hquorum
  epochs_eq := hsame.epochs_eq.trans hepochs
  leader_eq := hleader
  next_open := hdelivers.stops
  tallies slot hslot := by
    have hnext := hdelivers.next_eq
    rcases hdelivers.tally_cases slot with ⟨hlt, -⟩ | ⟨decided, heq⟩
    · omega
    · rw [heq]
      exact (htallies slot (by omega)).congr decided
  settled slot v hmem := by
    rcases List.mem_append.mp hmem with hmem | hmem
    · exact hsettled slot v hmem
    · obtain ⟨hslot, -⟩ := hdelivers.mem_iff.mp ⟨v, hmem⟩
      exact (htallies slot hslot).settled v (hdelivers.learned_of_mem slot v hmem)

/-- A vote changes the tally of its slot only. -/
theorem reflects_update {tally : Nat → Tally} {t : Tally} {next : Nat}
    (h : ∀ slot, next ≤ slot → (tally slot).Reflects mode quorum own seen slot)
    (ht : t.Reflects mode quorum own (insert m seen) m.slot) (slot : Nat) (hslot : next ≤ slot) :
    (update tally m.slot t slot).Reflects mode quorum own (insert m seen) slot := by
  rw [update_apply]
  split
  · rename_i heq
    exact heq ▸ ht
  · rename_i hne
    exact (h slot hslot).more (Ne.symm hne)

/-- **A learner reflects the votes** that have arrived, when one more arrives. -/
theorem Reflects.learn (h : l.Reflects mode quorum own seen log') (hunanimous : Unanimous votes)
    (hsub : seen ⊆ votes) (hm : m ∈ votes) (hlow : l.window.low ≤ l.next)
    (hact : l.act (.learn m) = .ok (l', d)) :
    l'.Reflects mode quorum own (insert m seen) (log' ++ d.delivered) := by
  have hleader := (leader_of_learn hact).1.trans h.leader_eq
  have hsettled : ∀ slot v, (slot, v) ∈ log' → Settled mode quorum (insert m seen) slot v :=
    fun slot v hmem => (h.settled slot v hmem).mono (Finset.subset_insert m seen)
  cases acts_of_act hact with
  | quiet _ quorum_eq mode_eq epochs_eq next_eq tally_eq _ ignored =>
    rw [List.append_nil]
    refine ⟨mode_eq.trans h.mode_eq, quorum_eq.trans h.quorum_eq, ?_, hleader, ?_,
      fun slot hslot => ?_, hsettled⟩
    · exact (epochs_eq.resolve_right nofun).trans h.epochs_eq
    · rw [tally_eq, next_eq]
      exact h.next_open
    · rw [next_eq] at hslot
      rw [tally_eq]
      by_cases hm' : m.slot = slot
      · refine (h.tallies slot hslot).ignore hunanimous hsub hm hm' ?_
        by_contra hcount
        have hcounts := ignored m rfl
        unfold Counts at hcounts
        rw [hm', h.mode_eq, h.epochs_eq] at hcounts
        exact hcounts ⟨hslot, hlow.trans hslot, Option.isSome_iff_ne_none.mpr hcount⟩
      · exact (h.tallies slot hslot).more hm'
  | @count m _ t same counts next_eq count_eq unsettled tally_eq =>
    rw [List.append_nil]
    rw [h.mode_eq, h.epochs_eq] at count_eq
    rw [h.mode_eq, h.quorum_eq] at unsettled
    obtain ⟨hopen, -, -, -, heq⟩ := Tally.count_eq_some count_eq
    obtain ⟨-, hreflects, -⟩ :=
      (h.tallies m.slot counts.1).count hunanimous hsub hm rfl count_eq
    refine ⟨same.mode_eq.trans h.mode_eq, same.quorum_eq.trans h.quorum_eq,
      same.epochs_eq.trans h.epochs_eq, hleader, ?_, ?_, hsettled⟩
    · rw [tally_eq, next_eq, update_apply]
      split
      · rw [heq]
        exact hopen
      · exact h.next_open
    · rw [tally_eq, next_eq]
      exact reflects_update h.tallies (hreflects unsettled)
  | @settle m _ t delivered outbound same counts count_eq settled delivers =>
    rw [h.mode_eq, h.epochs_eq] at count_eq
    rw [h.mode_eq, h.quorum_eq] at settled
    obtain ⟨-, -, hreflects⟩ :=
      (h.tallies m.slot counts.1).count hunanimous hsub hm rfl count_eq
    exact reflects_of_delivers same hleader delivers h.mode_eq h.quorum_eq h.epochs_eq
      (reflects_update h.tallies (hreflects settled)) hsettled

/-- A vote can be taken as long as there is a slot that lacks votes and fits in a word. -/
theorem Reflects.exists_act (h : l.Reflects mode quorum own seen log')
    (hunanimous : Unanimous votes) (hsub : seen ⊆ votes) (hm : m ∈ votes) (hb : b < Word.size)
    (hnext : l.next ≤ b) (hfew : ¬ Enough mode quorum votes b) :
    ∃ l' d, l.act (.learn m) = .ok (l', d) := by
  refine exists_learn_of_open h.leader_eq hb hnext (h.open_of_not_enough hsub hnext hfew) ?_
  intro hslot t hcount
  rw [h.mode_eq, h.epochs_eq] at hcount
  have hsettles := ((h.tallies b hnext).count hunanimous hsub hm hslot hcount).1
  rw [h.mode_eq, h.quorum_eq, Bool.eq_false_iff]
  exact fun hsettled => hfew ((hsettles.mp hsettled).mono (Finset.insert_subset hm hsub))

/-! ### Runs -/

section Runs

variable {s : RoleSettings} {id : Nat}

theorem reflects_start (hquorum : 0 < s.quorum) (id : Nat) (own : EpochVector) :
    (Replica.start s id own).learner.Reflects s.mode s.quorum own ∅ [] where
  mode_eq := rfl
  quorum_eq := rfl
  epochs_eq := rfl
  leader_eq := rfl
  next_open := by
    rw [tally_start]
    rfl
  tallies slot _ := by
    rw [tally_start]
    exact Tally.reflects_default hquorum s.mode own slot
  settled slot v hmem := absurd hmem List.not_mem_nil

/-- In every run in which nothing but votes arrives, the learner reflects them. -/
theorem reflects_of_runs (hquorum : 0 < s.quorum) (hunanimous : Unanimous votes)
    (h : Runs act (Replica.start s id own).learner l past) {order : List Learn}
    (hinput : past.map Turn.input = order.map .learn) (horder : ∀ vote ∈ order, vote ∈ votes) :
    l.Reflects s.mode s.quorum own order.toFinset (log past) ∧ l.next < Word.size := by
  induction h generalizing order with
  | nil =>
    obtain rfl : order = [] := List.map_eq_nil_iff.mp hinput.symm
    exact ⟨reflects_start hquorum id own, show 1 < Word.size by decide⟩
  | @step l l' x d past run act_eq ih =>
    rw [List.map_append, eq_comm, List.map_eq_append_iff] at hinput
    obtain ⟨before, rest, rfl, hbefore, hrest⟩ := hinput
    obtain ⟨m, rfl, rfl⟩ := List.map_eq_singleton_iff.mp hrest
    obtain ⟨horder, hm⟩ := List.forall_mem_append.mp horder
    obtain ⟨hreflects, hnext⟩ := ih hbefore.symm horder
    have hsub : before.toFinset ⊆ votes :=
      fun vote hvote => horder vote (List.mem_toFinset.mp hvote)
    have hlow := (retains_of_runs run).low_le_next
    have hinsert : (before ++ [m]).toFinset = insert m before.toFinset := by
      ext vote
      simp
    rw [hinsert, log_append, log_singleton]
    exact ⟨hreflects.learn hunanimous hsub (hm m List.mem_cons_self) hlow act_eq,
      (leader_of_learn act_eq).2 hnext⟩

/-- Votes can be taken, one after the other, as long as there is a slot that lacks votes and fits in a
word. -/
theorem exists_run_of_votes (id : Nat) (own : EpochVector) (hquorum : 0 < s.quorum)
    (hunanimous : Unanimous votes) (hb : 1 ≤ b) (hfit : b < Word.size)
    (hfew : ¬ Enough s.mode s.quorum votes b) {order : List Learn}
    (horder : ∀ vote ∈ order, vote ∈ votes) :
    ∃ l past, Runs act (Replica.start s id own).learner l past ∧
      past.map Turn.input = order.map .learn := by
  induction order using List.reverseRecOn with
  | nil => exact ⟨_, [], .nil, rfl⟩
  | append_singleton order m ih =>
    obtain ⟨hbefore, hm⟩ := List.forall_mem_append.mp horder
    obtain ⟨l, past, hrun, hinput⟩ := ih hbefore
    obtain ⟨hreflects, -⟩ := reflects_of_runs hquorum hunanimous hrun hinput hbefore
    have hsub : order.toFinset ⊆ votes :=
      fun vote hvote => hbefore vote (List.mem_toFinset.mp hvote)
    have hnext := hreflects.next_le (retains_of_runs hrun) hsub hb hfew
    obtain ⟨l', d, hact⟩ :=
      hreflects.exists_act hunanimous hsub (hm m List.mem_cons_self) hfit hnext hfew
    refine ⟨l', _, hrun.step hact, ?_⟩
    rw [List.map_append, List.map_append, hinput]
    rfl

/-- **The order of votes makes no difference.** Let the votes for each slot be of one round, for one value
and from different senders. Let `last` be the greatest number such that there are enough votes for each
slot up to it: as many as a quorum, of which in epoch-aware mode no two conflict. In whatever order the
votes arrive at a learner to which nothing has happened, and however often each of them, it delivers the
slots from 1 to `last`, with the values of the votes for them. It takes all votes exactly if the slot
after these fits in a word. -/
theorem delivers_in_any_order (s : RoleSettings) (hquorum : 0 < s.quorum) (id : Nat)
    (own : EpochVector) (votes : Finset Learn) (hunanimous : Unanimous votes) :
    ∃ last, ∃ value : Nat → Value,
      IsGreatest {last | EnoughUpTo s.mode s.quorum votes last} last ∧
      (∀ vote ∈ votes, value vote.slot = vote.value) ∧
      ∀ order : List Learn, (∀ vote, vote ∈ order ↔ vote ∈ votes) →
        (last + 1 < Word.size ↔ ∃ l past, Runs act (Replica.start s id own).learner l past ∧
          past.map Turn.input = order.map .learn) ∧
        ∀ l past, Runs act (Replica.start s id own).learner l past →
          past.map Turn.input = order.map .learn →
          log past = (List.range' 1 last).map fun slot => (slot, value slot) := by
  obtain ⟨last, hlast⟩ := exists_isGreatest_enough s.mode hquorum votes
  obtain ⟨value, hvalue⟩ := exists_value_of_unanimous hunanimous
  refine ⟨last, value, hlast, hvalue, fun order horder => ?_⟩
  have hvotes : ∀ vote ∈ order, vote ∈ votes := fun vote hvote => (horder vote).mp hvote
  have hall : order.toFinset = votes := by
    ext vote
    rw [List.mem_toFinset, horder]
  have hreflects : ∀ l past, Runs act (Replica.start s id own).learner l past →
      past.map Turn.input = order.map .learn →
      l.Reflects s.mode s.quorum own votes (log past) ∧ l.next < Word.size := by
    rw [← hall]
    exact fun l past hrun hinput => reflects_of_runs hquorum hunanimous hrun hinput hvotes
  refine ⟨⟨fun hfit => ?_, ?_⟩, fun l past hrun hinput => ?_⟩
  · exact exists_run_of_votes id own hquorum hunanimous (Nat.le_add_left 1 last) hfit
      (not_enough_of_isGreatest hlast) hvotes
  · rintro ⟨l, past, hrun, hinput⟩
    obtain ⟨hreflects, hlt⟩ := hreflects l past hrun hinput
    rwa [hreflects.next_eq (retains_of_runs hrun) hlast] at hlt
  · exact (hreflects l past hrun hinput).1.log_eq (retains_of_runs hrun) hlast hvalue

/-- Replica 1 knows replica 0 under a later epoch than replica 0 claims, so their votes for slots 1 and 3
conflict. Slot 1 has a valid quorum with replica 2, slot 3 has none. Slots 2 and 4 are learned before
slot 1; slots 1 and 2 are delivered. -/
theorem delivers_in_any_order_of_conflict : ∃ order : List Learn, ∃ l past,
    Unanimous order.toFinset ∧
    Runs act (Replica.start ⟨2, 3, 10, 5, .epochAware⟩ 0 ⟨[0, 0, 0]⟩).learner l past ∧
    past.map Turn.input = order.map .learn ∧ order.length = 10 ∧
    log past = [(1, .appBatch [65]), (2, .appBatch [66])] := by
  let vote (sender slot : Nat) (n : UInt8) : Learn :=
    ⟨sender, slot, ⟨1, 1⟩, .appBatch [n], ⟨[if sender = 1 then 1 else 0, 0, 0]⟩⟩
  let order : List Learn := [vote 0 4 68, vote 1 1 65, vote 0 3 67, vote 0 1 65, vote 1 3 67,
    vote 2 2 66, vote 2 4 68, vote 1 1 65, vote 0 2 66, vote 2 1 65]
  have hunanimous : Unanimous order.toFinset :=
    ⟨by decide +kernel, by decide +kernel, by decide +kernel⟩
  obtain ⟨last, value, hlast, hvalue, hdelivers⟩ := delivers_in_any_order
    ⟨2, 3, 10, 5, .epochAware⟩ (by decide) 0 ⟨[0, 0, 0]⟩ order.toFinset hunanimous
  have henough : ∀ slot ∈ [1, 2], Enough .epochAware 2 order.toFinset slot := by decide +kernel
  have hfew : ¬ Enough .epochAware 2 order.toFinset 3 := by decide +kernel
  have hge : 2 ≤ last := hlast.2 fun slot hpos hle => henough slot (by simp; omega)
  have hle : last ≤ 2 := by
    by_contra hlt
    exact hfew (hlast.1 3 (by decide) (by omega))
  obtain rfl : last = 2 := Nat.le_antisymm hle hge
  obtain ⟨htaken, hlog⟩ := hdelivers order fun vote => List.mem_toFinset.symm
  obtain ⟨l, past, hrun, hinput⟩ := htaken.mp (by decide)
  refine ⟨order, l, past, hunanimous, hrun, hinput, rfl, ?_⟩
  have hone : value 1 = .appBatch [65] := hvalue (vote 0 1 65) (by decide +kernel)
  have htwo : value 2 = .appBatch [66] := hvalue (vote 0 2 66) (by decide +kernel)
  rw [hlog l past hrun hinput]
  simp [List.range', hone, htwo]

end Runs

end Learner

end ReplicatedLog
