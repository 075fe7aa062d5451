import ReplicatedLog.Proofs.CalmLeader

/-!
# The learners of a calm run

All votes of a calm run are for the first round of the leader, carry the same view of the membership
and, for one slot, the same value. So a learner counts every vote that it gets, in whatever order
(`Learner.Steady`): once a vote has arrived, its slot is delivered or learned, or the vote is among
those that are counted (`Learner.Heard`), and a quorum of votes makes the slot learned.
-/

namespace ReplicatedLog

open Function

/-- The tally of a slot in a calm run. -/
structure Tally.Steady (leader q : Nat) (t : Tally) : Prop where
  /-- There is no higher round than the first of the leader. -/
  round_le : t.round ≤ firstRound leader
  /-- It counts votes of that round. -/
  round_eq : t.votes ≠ [] → t.round = firstRound leader
  /-- No vote disagreed about the membership. -/
  undisputed : t.disputed = false
  /-- While the slot is not learned, there are too few votes. -/
  few : t.learned = none → t.votes.length < q

namespace Tally

variable {leader q : Nat} {t t' : Tally}

theorem steady_default (hq : 0 < q) : Steady leader q default where
  round_le := Or.inl Nat.one_pos
  round_eq h := absurd rfl h
  undisputed := rfl
  few _ := hq

/-- Whether the slot was delivered makes no difference. -/
theorem Steady.congr (h : t.Steady leader q) (decided : Bool) :
    Steady leader q { t with decided } :=
  ⟨h.round_le, h.round_eq, h.undisputed, h.few⟩

/-- A vote of the first round joins all that were counted. -/
theorem Steady.joined_eq (h : t.Steady leader q) : t.joined (firstRound leader) = t.votes := by
  unfold joined
  split
  · rename_i hlt
    by_contra hne
    exact hlt.ne (h.round_eq (Ne.symm hne))
  · rfl

/-- Views that are the same cause no dispute. -/
theorem not_disputes {mode : Mode} {own : EpochVector} {m : Learn} (h : m.epochs = own) :
    mode.disputes own m = false := by
  cases mode <;> simp [Mode.disputes, h]

/-- Without a dispute a quorum of votes settles a slot. -/
theorem settles_iff (mode : Mode) (votes : List Learn) :
    mode.settles votes q false = true ↔ q ≤ votes.length := by
  cases mode <;> simp [Mode.settles]

/-- What is left when a vote of a calm run was counted. -/
theorem Steady.count (h : t.Steady leader q) {mode : Mode} {own : EpochVector} {m : Learn}
    (hround : m.round = firstRound leader) (hepochs : m.epochs = own)
    (hcount : t.count mode own m = some t') : t.learned = none ∧
      t' = { t with round := firstRound leader, votes := t.votes ++ [m], disputed := false } := by
  obtain ⟨hlearned, -, -, -, rfl⟩ := count_eq_some hcount
  refine ⟨hlearned, ?_⟩
  rw [hround, h.joined_eq, h.undisputed, not_disputes hepochs]
  rfl

end Tally

namespace Learner

variable {leader q : Nat} {l l' : Learner}

/-- The learner counts what it gets. -/
structure Steady (leader q : Nat) (l : Learner) : Prop where
  /-- It gives up no slot that is not delivered. -/
  low_le : l.window.low ≤ l.next
  /-- The slot that is next is not learned. -/
  next_open : (l.tally l.next).learned = none
  /-- Its tallies are steady. -/
  tallies : ∀ slot, (l.tally slot).Steady leader q

theorem steady_start (hq : 0 < q) (hwindow : l.window = {}) (hnext : l.next = 1) :
    Steady leader q l := by
  have hblank : ∀ slot, l.tally slot = default := by
    intro slot
    rw [tally, hwindow, Window.get?_empty]
    rfl
  refine ⟨?_, ?_, fun slot => ?_⟩
  · rw [hwindow, hnext]
  · rw [hblank]
    rfl
  · rw [hblank]
    exact Tally.steady_default hq

/-- Delivering slots with steady tallies leaves a learner steady. -/
theorem Steady.deliver (hq : 0 < q) {tally : Nat → Tally} {delivered : List (Nat × Value)}
    (hlow : l.window.low ≤ l.next) (htallies : ∀ slot, (tally slot).Steady leader q)
    (hdelivers : Delivers l.next tally l' delivered) (hlow' : l'.window.low =
      if delivered = [] then l.window.low else max l.window.low (l'.next - l.retention)) :
    l'.Steady leader q := by
  refine ⟨?_, hdelivers.stops, fun slot => ?_⟩
  · have hnext := hdelivers.next_eq
    rw [hlow']
    split <;> omega
  · rcases hdelivers.tally_cases slot with ⟨-, hblank⟩ | ⟨decided, heq⟩
    · rw [hblank]
      exact Tally.steady_default hq
    · rw [heq]
      exact (htallies slot).congr decided

/-- **A learner stays steady** if the votes that arrive are of the first round and carry its own view of
the membership. -/
theorem Steady.act (h : l.Steady leader q) (hq : 0 < q) (hquorum : l.quorum = q) {x : Input}
    {d : Delivery} (hvote : ∀ m, x = .learn m → m.round = firstRound leader ∧ m.epochs = l.epochs)
    (hact : l.act x = .ok (l', d)) : l'.Steady leader q := by
  cases acts_of_act hact with
  | quiet _ _ _ _ next_eq tally_eq _ _ _ low_eq =>
    refine ⟨?_, ?_, ?_⟩
    · rw [low_eq, next_eq]
      exact h.low_le
    · rw [tally_eq, next_eq]
      exact h.next_open
    · rw [tally_eq]
      exact h.tallies
  | answer => exact h
  | @count m _ t _ counts next_eq count_eq unsettled tally_eq low_eq =>
    obtain ⟨hround, hepochs⟩ := hvote m rfl
    obtain ⟨hlearned, rfl⟩ := (h.tallies m.slot).count hround hepochs count_eq
    refine ⟨?_, ?_, fun slot => ?_⟩
    · rw [low_eq, next_eq]
      exact h.low_le
    · rw [tally_eq, next_eq, update_apply]
      split
      · exact hlearned
      · exact h.next_open
    · rw [tally_eq, update_apply]
      split
      · refine ⟨le_rfl, fun _ => rfl, rfl, fun _ => Nat.lt_of_not_le fun hle => ?_⟩
        rw [hquorum, (Tally.settles_iff _ _).mpr hle] at unsettled
        cases unsettled
      · exact h.tallies slot
  | @settle m _ t delivered outbound _ counts count_eq settled delivers _ low_eq =>
    obtain ⟨hround, hepochs⟩ := hvote m rfl
    obtain ⟨-, rfl⟩ := (h.tallies m.slot).count hround hepochs count_eq
    refine Steady.deliver hq h.low_le (fun slot => ?_) delivers low_eq
    rw [update_apply]
    split
    · refine ⟨le_rfl, fun _ => rfl, rfl, fun hnone => ?_⟩
      -- it has a vote, so it is learned
      simp [Tally.candidate] at hnone
    · exact h.tallies slot
  | @take m _ tally delivered _ takes delivers low_eq =>
    refine Steady.deliver hq h.low_le (fun slot => ?_) delivers low_eq
    rcases takes slot with heq | ⟨value, -, -, heq⟩
    · rw [heq]
      exact h.tallies slot
    · rw [heq]
      exact ⟨(h.tallies slot).round_le, (h.tallies slot).round_eq, (h.tallies slot).undisputed,
        fun hnone => by cases hnone⟩

/-! ### Votes that arrived -/

/-- The slot of the vote is delivered or learned, or the sender's vote is among those counted. -/
def Heard (l : Learner) (m : Learn) : Prop :=
  m.slot < l.next ∨ (l.tally m.slot).learned.isSome = true ∨
    m.sender ∈ (l.tally m.slot).votes.map Learn.sender

/-- What was heard of a slot stays so when slots are delivered. -/
theorem heard_of_delivers {m : Learn} {next : Nat} {tally : Nat → Tally}
    {delivered : List (Nat × Value)} (hdelivers : Delivers next tally l' delivered)
    (h : m.slot < next ∨ (tally m.slot).learned.isSome = true ∨
      m.sender ∈ (tally m.slot).votes.map Learn.sender) : l'.Heard m := by
  have hnext := hdelivers.next_eq
  rcases h with hlt | h
  · exact Or.inl (by omega)
  · rcases hdelivers.tally_cases m.slot with ⟨hlt, -⟩ | ⟨decided, heq⟩
    · exact Or.inl hlt
    · right
      rw [heq]
      exact h

/-- What was heard stays so. -/
theorem Heard.act {m : Learn} (h : l.Heard m) (hsteady : l.Steady leader q) {x : Input}
    {d : Delivery} (hvote : ∀ m, x = .learn m → m.round = firstRound leader ∧ m.epochs = l.epochs)
    (hact : l.act x = .ok (l', d)) : l'.Heard m := by
  -- counting one more vote loses none
  have hcounted : ∀ {m' : Learn} {t : Tally}, x = .learn m' →
      (l.tally m'.slot).count l.mode l.epochs m' = some t →
      m.slot < l.next ∨ (update l.tally m'.slot t m.slot).learned.isSome = true ∨
        m.sender ∈ (update l.tally m'.slot t m.slot).votes.map Learn.sender := by
    intro m' t hx hcount
    obtain ⟨hround, hepochs⟩ := hvote m' hx
    obtain ⟨-, rfl⟩ := (hsteady.tallies m'.slot).count hround hepochs hcount
    refine h.imp_right fun h => ?_
    rw [update_apply]
    split
    · rename_i heq
      rw [heq] at h
      refine h.imp_right fun hmem => ?_
      rw [List.map_append]
      exact List.mem_append_left _ hmem
    · exact h
  cases acts_of_act hact with
  | quiet _ _ _ _ next_eq tally_eq =>
    unfold Heard
    rw [next_eq, tally_eq]
    exact h
  | answer => exact h
  | count _ _ next_eq count_eq _ tally_eq =>
    unfold Heard
    rw [next_eq, tally_eq]
    exact hcounted rfl count_eq
  | @settle m' _ t delivered outbound _ _ count_eq _ delivers =>
    refine heard_of_delivers delivers ((hcounted rfl count_eq).imp_right ?_)
    rw [update_apply, update_apply]
    split
    · rintro (hlearned | hmem)
      · -- the slot is learned already, so no vote would be counted
        obtain ⟨hround, hepochs⟩ := hvote m' rfl
        obtain ⟨hnone, rfl⟩ := (hsteady.tallies m'.slot).count hround hepochs count_eq
        simp [hnone] at hlearned
      · exact Or.inr hmem
    · exact fun h => h
  | @take m' _ tally delivered _ takes delivers =>
    refine heard_of_delivers delivers (h.imp_right fun h => ?_)
    rcases takes m.slot with heq | ⟨value, -, -, heq⟩
    · rw [heq]
      exact h
    · rw [heq]
      exact Or.inl rfl

/-- A vote that arrives is heard, if all votes counted for its slot are for its value. -/
theorem heard_of_learn {m : Learn} {d : Delivery} (hsteady : l.Steady leader q)
    (hround : m.round = firstRound leader) (hepochs : m.epochs = l.epochs)
    (hvalue : ∀ vote ∈ (l.tally m.slot).votes, vote.value = m.value)
    (hact : l.act (.learn m) = .ok (l', d)) : l'.Heard m := by
  have hcount : ∀ {t : Tally}, (l.tally m.slot).count l.mode l.epochs m = some t →
      m.sender ∈ t.votes.map Learn.sender := by
    intro t hcount
    obtain ⟨-, rfl⟩ := (hsteady.tallies m.slot).count hround hepochs hcount
    simp
  cases acts_of_act hact with
  | quiet _ _ _ _ next_eq tally_eq _ ignored =>
    unfold Heard
    rw [next_eq, tally_eq]
    by_cases hslot : m.slot < l.next
    · exact Or.inl hslot
    · right
      have hlow := hsteady.low_le
      have hnone : (l.tally m.slot).count l.mode l.epochs m = none := by
        by_contra hsome
        exact ignored m rfl ⟨by omega, by omega, Option.isSome_iff_ne_none.mpr hsome⟩
      rcases Tally.of_count_eq_none hnone with hlearned | hlt | ⟨vote, hmem, hsender | hne⟩
      · exact Or.inl hlearned
      · exact absurd (hround ▸ (hsteady.tallies m.slot).round_le) (not_le.mpr hlt)
      · exact Or.inr (List.mem_map.mpr ⟨vote, hmem, hsender⟩)
      · exact absurd (hvalue vote hmem) hne
  | count _ _ _ count_eq _ tally_eq =>
    refine Or.inr (Or.inr ?_)
    rw [tally_eq, update_self]
    exact hcount count_eq
  | settle _ _ count_eq _ delivers =>
    refine heard_of_delivers delivers (Or.inr (Or.inr ?_))
    have hmem := hcount count_eq
    rw [update_self]
    exact hmem

/-- The slot that is next lacks a quorum of votes that were heard. -/
theorem Steady.not_heard (h : l.Steady leader q) {Q : List Nat} (hnodup : Q.Nodup)
    (hlength : q ≤ Q.length) :
    ¬ ∀ i ∈ Q, ∃ m, m.sender = i ∧ m.slot = l.next ∧ l.Heard m := by
  intro hheard
  have hsubset : Q ⊆ (l.tally l.next).votes.map Learn.sender := by
    intro i hi
    obtain ⟨m, rfl, hslot, hm⟩ := hheard i hi
    unfold Heard at hm
    rw [hslot] at hm
    rcases hm with hlt | hlearned | hmem
    · exact absurd hlt (Nat.lt_irrefl _)
    · rw [h.next_open] at hlearned
      cases hlearned
    · exact hmem
  have hle := (hnodup.subperm hsubset).length_le
  have hlt := (h.tallies l.next).few h.next_open
  rw [List.length_map] at hle
  omega

end Learner

end ReplicatedLog
