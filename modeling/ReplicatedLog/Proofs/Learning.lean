import ReplicatedLog.Proofs.Roles
import Mathlib.Logic.Function.Basic

/-!
# Steps of a learner

What one step of a learner can be, said once for all its inputs. A learner is described by its next
slot and by the tally of each slot, blank where none is held (`Learner.tally`). A step
(`Learner.Acts`)

* changes neither, and asks for missing slots at most;
* answers a request with slots that are learned;
* counts a vote;
* counts the vote that settles a slot, or takes the slots of an answer, and delivers the slots that
  are learned from the next one on (`Learner.Delivers`).
-/

namespace ReplicatedLog

open Function

/-! ### Counting -/

namespace Tally

/-- The votes that a vote of a round joins. -/
def joined (t : Tally) (round : Round) : List Learn := if t.round < round then [] else t.votes

/-- A vote that counts is put after those of its round that are for its value, from other senders. -/
theorem count_eq_some {t t' : Tally} {mode : Mode} {own : EpochVector} {m : Learn}
    (h : t.count mode own m = some t') :
    t.learned = none ∧ t.round ≤ m.round ∧
      (∀ vote ∈ t.joined m.round, vote.sender ≠ m.sender) ∧
      (∀ vote, (t.joined m.round).head? = some vote → vote.value = m.value) ∧
      t' = { t with
        round := m.round
        votes := t.joined m.round ++ [m]
        disputed := t.disputed || mode.disputes own m } := by
  unfold count at h
  split at h
  · cases h
  rename_i hcounts
  simp only [Bool.or_eq_true, decide_eq_true_eq, not_or] at hcounts
  obtain ⟨hlearned, hround⟩ := hcounts
  have hle := Round.not_lt.mp hround
  have hjoined : (if t.round < m.round then { t with round := m.round, votes := [] } else t) =
      { t with round := m.round, votes := t.joined m.round } := by
    unfold joined
    split
    · rfl
    · rename_i hnot
      rw [← Round.le_antisymm hle (Round.not_lt.mp hnot)]
  rw [hjoined] at h
  dsimp only at h
  split at h
  · cases h
  rename_i hsender
  split at h
  · cases h
  rename_i hvalue
  cases h
  refine ⟨by simpa using hlearned, hle, ?_, ?_, rfl⟩
  · intro vote hvote heq
    exact hsender (List.any_eq_true.mpr ⟨vote, hvote, beq_iff_eq.mpr heq⟩)
  · intro vote hvote
    rw [hvote] at hvalue
    simpa using hvalue

/-- A vote that does not count is late, or of too low a round, or a vote of its round is from the same
sender or for another value. -/
theorem of_count_eq_none {t : Tally} {mode : Mode} {own : EpochVector} {m : Learn}
    (h : t.count mode own m = none) : t.learned.isSome = true ∨ m.round < t.round ∨
      ∃ vote ∈ t.votes, vote.sender = m.sender ∨ vote.value ≠ m.value := by
  have hjoined : ∀ vote ∈ (if t.round < m.round then { t with round := m.round, votes := [] }
      else t).votes, vote ∈ t.votes := by
    intro vote hvote
    split at hvote
    · exact (List.not_mem_nil hvote).elim
    · exact hvote
  unfold count at h
  split at h
  · rename_i hlate
    rw [Bool.or_eq_true, decide_eq_true_eq] at hlate
    exact hlate.imp_right Or.inl
  dsimp only at h
  generalize (if t.round < m.round then { t with round := m.round, votes := [] } else t) = t'
    at h hjoined
  split at h
  · rename_i hsender
    obtain ⟨vote, hvote, heq⟩ := List.any_eq_true.mp hsender
    exact Or.inr (Or.inr ⟨vote, hjoined vote hvote, Or.inl (beq_iff_eq.mp heq)⟩)
  split at h
  · rename_i hvalue
    obtain ⟨vote, hvote, hne⟩ := (Option.any_eq_true _ _).mp hvalue
    exact Or.inr (Or.inr ⟨vote, hjoined vote (List.mem_of_head? hvote), Or.inr (by simpa using hne)⟩)
  · cases h

/-- A vote joins those of its round, or it is the first one of a higher round. -/
theorem joined_cases {t : Tally} {round : Round} (h : t.round ≤ round) :
    t.joined round = [] ∨ t.round = round ∧ t.joined round = t.votes := by
  unfold joined
  split
  · exact Or.inl rfl
  · rename_i hnot
    exact Or.inr ⟨Round.le_antisymm h (Round.not_lt.mp hnot), rfl⟩

theorem mem_votes_of_mem_joined {t : Tally} {round : Round} {vote : Learn}
    (h : vote ∈ t.joined round) : vote ∈ t.votes := by
  unfold joined at h
  split at h
  · exact (List.not_mem_nil h).elim
  · exact h

/-- Of each sender at most one vote is counted. -/
theorem nodup_of_count {t t' : Tally} {mode : Mode} {own : EpochVector} {m : Learn}
    (hnodup : (t.votes.map Learn.sender).Nodup) (h : t.count mode own m = some t') :
    (t'.votes.map Learn.sender).Nodup := by
  obtain ⟨-, hround, hsenders, -, rfl⟩ := count_eq_some h
  rw [List.map_append, List.nodup_append]
  refine ⟨?_, by simp, fun i hi j hj heq => ?_⟩
  · rcases joined_cases hround with hnone | ⟨-, hall⟩
    · simp [hnone]
    · rw [hall]
      exact hnodup
  · obtain ⟨vote, hvote, rfl⟩ := List.mem_map.mp hi
    obtain rfl := List.mem_singleton.mp hj
    exact hsenders vote hvote heq

/-- The votes of a tally are for its slot, in its round, for one value, and from different senders. -/
structure Uniform (slot : Nat) (t : Tally) : Prop where
  /-- They are for the slot. -/
  slot_eq : ∀ vote ∈ t.votes, vote.slot = slot
  /-- They are of the round. -/
  round_eq : ∀ vote ∈ t.votes, vote.round = t.round
  /-- They are for one value. -/
  agree : ∀ vote ∈ t.votes, t.candidate = some vote.value
  /-- No two are from one sender. -/
  nodup : (t.votes.map Learn.sender).Nodup

theorem uniform_default (slot : Nat) : Uniform slot default := by
  constructor <;> simp [default]

/-- It stays so when a vote is counted. -/
theorem Uniform.count {t t' : Tally} {slot : Nat} {mode : Mode} {own : EpochVector} {m : Learn}
    (h : t.Uniform slot) (hslot : m.slot = slot) (hcount : t.count mode own m = some t') :
    t'.Uniform slot := by
  have hnodup := nodup_of_count h.nodup hcount
  obtain ⟨-, hround, -, hvalue, rfl⟩ := count_eq_some hcount
  rcases joined_cases hround with hnone | ⟨heq, hall⟩
  · constructor
    · simp [hnone, hslot]
    · simp [hnone]
    · simp [hnone, candidate]
    · exact hnodup
  · rw [hall] at hnodup hvalue ⊢
    constructor
    · intro vote hvote
      rcases List.mem_append.mp hvote with hvote | hvote
      · exact h.slot_eq vote hvote
      · rw [List.mem_singleton.mp hvote, hslot]
    · intro vote hvote
      rcases List.mem_append.mp hvote with hvote | hvote
      · exact (h.round_eq vote hvote).trans heq
      · rw [List.mem_singleton.mp hvote]
    · intro vote hvote
      have hagree := h.agree
      unfold candidate at hagree ⊢
      cases hvotes : t.votes with
      | nil =>
        rw [hvotes] at hvote
        obtain rfl := List.mem_singleton.mp hvote
        rfl
      | cons first rest =>
        rw [hvotes] at hvote hvalue hagree
        rcases List.mem_append.mp hvote with hvote | hvote
        · exact hagree vote hvote
        · obtain rfl := List.mem_singleton.mp hvote
          exact congrArg some (hvalue first rfl)
    · exact hnodup

/-- Whether the slot is learned or delivered makes no difference. -/
theorem Uniform.congr {t : Tally} {slot : Nat} (h : t.Uniform slot) (learned : Option Value)
    (decided : Bool) : Uniform slot { t with learned, decided } :=
  ⟨h.slot_eq, h.round_eq, h.agree, h.nodup⟩

/-- From `t` to `t'` the slot is as it was, or it is learned with the value of an answer. -/
def Takes (m : CatchUpResponse) (slot : Nat) (t t' : Tally) : Prop :=
  t' = t ∨ ∃ value, (slot, value) ∈ m.decided ∧ t.learned = none ∧
    t' = { t with learned := some value }

end Tally

namespace Learner

/-- The tally of a slot; blank if none is held. -/
def tally (l : Learner) (slot : Nat) : Tally := (l.window.get? slot).getD default

/-- The second is the first later on: what a learner is set up with, and its view of the
membership. -/
structure Same (l l' : Learner) : Prop where
  /-- It belongs to the same replica. -/
  id_eq : l'.id = l.id
  /-- It needs as many votes. -/
  quorum_eq : l'.quorum = l.quorum
  /-- It goes by the same rules. -/
  mode_eq : l'.mode = l.mode
  /-- It has the same view of the membership. -/
  epochs_eq : l'.epochs = l.epochs
  /-- It keeps as many delivered slots. -/
  retention_eq : l'.retention = l.retention

/-! ### Delivery -/

/-- A learner with the tallies `tally` delivers learned slots from `next` on, and becomes `l'`. It gives
up slots, or notes that they were delivered; nothing else about them changes. -/
structure Delivers (next : Nat) (tally : Nat → Tally) (l' : Learner)
    (delivered : List (Nat × Value)) : Prop where
  /-- The slots follow each other, from the next one on. -/
  slots : delivered.map Prod.fst = List.range' next delivered.length
  /-- What is delivered is learned. -/
  learned_of_mem : ∀ slot value, (slot, value) ∈ delivered → (tally slot).learned = some value
  /-- The slots after them are next. -/
  next_eq : l'.next = next + delivered.length
  /-- A tally that was delivered is given up, or it is only marked. -/
  tally_cases : ∀ slot, slot < l'.next ∧ l'.tally slot = default ∨
    ∃ decided, l'.tally slot = { tally slot with decided }
  /-- The slot that is next then is not learned. -/
  stops : (l'.tally l'.next).learned = none
  /-- A slot that is not given up is marked if it was delivered, and otherwise as before. -/
  tally_eq : ∀ slot, l'.window.low ≤ slot → l'.tally slot =
    { tally slot with
      decided := (tally slot).decided || decide (slot ∈ delivered.map Prod.fst) }

theorem Delivers.mem_iff {next : Nat} {tally : Nat → Tally} {l' : Learner}
    {delivered : List (Nat × Value)} (h : Delivers next tally l' delivered) {slot : Nat} :
    (∃ v, (slot, v) ∈ delivered) ↔ next ≤ slot ∧ slot < l'.next := by
  rw [h.next_eq, ← List.mem_range'_1, ← h.slots]
  simp

/-- The values that are ready are those of the records, one by one. -/
theorem learned_of_ready {tallies : List Tally} {k : Nat} {value : Value}
    (h : (ready tallies)[k]? = some value) :
    ∃ t, tallies[k]? = some t ∧ t.learned = some value := by
  induction tallies generalizing k with
  | nil => simp [ready] at h
  | cons t rest ih =>
    unfold ready at h
    split at h
    · simp at h
    · rename_i v hv
      cases k with
      | zero => exact ⟨t, rfl, hv.trans h⟩
      | succ k => exact ih h

/-- What follows the values that are ready is not learned. -/
theorem learned_of_length_ready {tallies : List Tally} {t : Tally}
    (h : tallies[(ready tallies).length]? = some t) : t.learned = none := by
  induction tallies with
  | nil => simp at h
  | cons first rest ih =>
    cases hlearned : first.learned with
    | none =>
      simp only [ready, hlearned, List.length_nil, List.getElem?_cons_zero, Option.some.injEq] at h
      rw [← h, hlearned]
    | some value =>
      simp only [ready, hlearned, List.length_cons, List.getElem?_cons_succ] at h
      exact ih h

/-- The slot after those that are ready is not learned. -/
theorem learned_add_length_ready (l : Learner) :
    (l.tally (l.next + (ready (l.window.entriesFrom l.next)).length)).learned = none := by
  by_cases hlow : l.window.low ≤ l.next
  · rw [tally, ← Window.getElem?_entriesFrom hlow]
    cases ht : (l.window.entriesFrom l.next)[(ready (l.window.entriesFrom l.next)).length]? with
    | none => rfl
    | some t => exact learned_of_length_ready ht
  · -- below the low mark nothing is held
    have hnone : l.window.entriesFrom l.next = [] := if_pos (Nat.not_le.mp hlow)
    have hblank : l.window.get? l.next = none :=
      Window.get?_of_lt_low (Nat.not_le.mp hlow)
    rw [hnone, tally]
    simp only [ready, List.length_nil, Nat.add_zero, hblank]
    rfl

/-- Marks slots as delivered. -/
def mark (w : Window Tally) (marked : List (Nat × Value)) : Window Tally :=
  marked.foldl (fun window (slot, _) => window.modify slot fun t => { t with decided := true }) w

theorem low_mark (w : Window Tally) (marked : List (Nat × Value)) : (mark w marked).low = w.low := by
  refine List.foldlRecOn (motive := fun w' : Window Tally => w'.low = w.low) _ _ rfl ?_
  intro w' hw' mark _
  rw [Window.low_modify, hw']

/-- Marking slots, one by one, changes nothing else about them. -/
theorem getD_get?_mark (w : Window Tally) (marked : List (Nat × Value)) (slot : Nat) :
    ((mark w marked).get? slot).getD default =
      { (w.get? slot).getD default with
        decided := ((w.get? slot).getD default).decided ||
          decide (w.low ≤ slot ∧ slot ∈ marked.map Prod.fst) } := by
  induction marked generalizing w with
  | nil => simp [mark]
  | cons first rest ih =>
    rw [mark, List.foldl_cons]
    refine (ih _).trans ?_
    rw [Window.getD_get?_modify, Window.low_modify]
    simp only [List.map_cons, List.mem_cons]
    by_cases hslot : slot = first.1
    · subst hslot
      by_cases hlow : w.low ≤ first.1 <;> simp [hlow]
    · simp [hslot]

theorem deliver_cases {l l' : Learner} {delivered : List (Nat × Value)}
    (h : l.deliver = .ok (l', delivered)) : Same l l' ∧ Delivers l.next l.tally l' delivered := by
  obtain ⟨next, hnext, hret⟩ := Checked.bind_eq_ok_iff.mp h
  obtain ⟨-, rfl⟩ := Word.fit_eq_ok_iff.mp hnext
  obtain ⟨hl', rfl⟩ := Prod.mk.inj (Except.ok.inj hret)
  have hready : ∀ k value, (ready (l.window.entriesFrom l.next))[k]? = some value →
      (l.tally (l.next + k)).learned = some value := by
    intro k value hk
    obtain ⟨t, ht, hlearned⟩ := learned_of_ready hk
    rw [tally, Window.get?_of_entriesFrom ht]
    exact hlearned
  have hstops := l.learned_add_length_ready
  generalize ready (l.window.entriesFrom l.next) = values at hready hstops hl' ⊢
  have hlength : ((List.range' l.next values.length).zip values).length = values.length := by simp
  have hslots : ((List.range' l.next values.length).zip values).map Prod.fst =
      List.range' l.next values.length := List.map_fst_zip (by simp)
  have hnext' : l'.next = l.next + values.length := by rw [← hl']
  -- a tally is given up, or it is marked at most
  have htally : ∀ slot, (slot < l'.next ∧ slot < l'.window.low ∧ l'.tally slot = default) ∨
      l.window.low ≤ l'.window.low ∧ l'.tally slot =
        { l.tally slot with
          decided := (l.tally slot).decided ||
            decide (l.window.low ≤ slot ∧ slot ∈ List.range' l.next values.length) } := by
    intro slot
    have hmarked := getD_get?_mark l.window ((List.range' l.next values.length).zip values) slot
    have hlow := low_mark l.window ((List.range' l.next values.length).zip values)
    rw [hslots] at hmarked
    rw [← hl']
    unfold tally
    dsimp only
    split
    · exact Or.inr ⟨Nat.le_of_eq hlow.symm, hmarked⟩
    · rw [Window.getD_get?_raise, Window.low_raise]
      split
      · rename_i hbelow
        exact Or.inl ⟨Nat.lt_of_lt_of_le hbelow (Nat.sub_le _ _),
          Nat.lt_of_lt_of_le hbelow (Nat.le_max_right _ _), rfl⟩
      · exact Or.inr ⟨Nat.le_trans (Nat.le_of_eq hlow.symm) (Nat.le_max_left _ _), hmarked⟩
  refine ⟨by subst hl'; exact ⟨rfl, rfl, rfl, rfl, rfl⟩, ?_⟩
  constructor
  · rw [hlength, hslots]
  · intro slot value hmem
    obtain ⟨k, hk⟩ := List.mem_iff_getElem?.mp hmem
    obtain ⟨hslot, hvalue⟩ := List.getElem?_zip_eq_some.mp hk
    obtain ⟨hlt, rfl⟩ := List.getElem?_eq_some_iff.mp hslot
    rw [List.getElem_range', Nat.one_mul]
    exact hready k value hvalue
  · rw [hlength, hnext']
  · intro slot
    rcases htally slot with ⟨hlt, -, hblank⟩ | ⟨-, heq⟩
    · exact Or.inl ⟨hlt, hblank⟩
    · exact Or.inr ⟨_, heq⟩
  · rcases htally l'.next with ⟨hlt, -⟩ | ⟨-, heq⟩
    · exact absurd hlt (Nat.lt_irrefl _)
    · rw [heq, hnext']
      exact hstops
  · intro slot hslot
    rcases htally slot with ⟨-, hlt, -⟩ | ⟨hle, heq⟩
    · exact absurd hslot (Nat.not_le.mpr hlt)
    · rw [heq, hslots]
      simp [Nat.le_trans hle hslot]

/-- Slots that fall behind the retention are given up when others are delivered. -/
theorem low_of_deliver {l l' : Learner} {delivered : List (Nat × Value)}
    (h : l.deliver = .ok (l', delivered)) : l'.window.low =
      if delivered = [] then l.window.low else max l.window.low (l'.next - l.retention) := by
  obtain ⟨next, -, hret⟩ := Checked.bind_eq_ok_iff.mp h
  obtain ⟨rfl, rfl⟩ := Prod.mk.inj (Except.ok.inj hret)
  by_cases hnone : (List.range' l.next (ready (l.window.entriesFrom l.next)).length).zip
      (ready (l.window.entriesFrom l.next)) = []
  · rw [if_pos hnone, if_pos (List.isEmpty_iff.mpr hnone)]
    exact low_mark _ _
  · rw [if_neg hnone, if_neg (mt List.isEmpty_iff.mp hnone), Window.low_raise]
    congr 1
    exact low_mark _ _

/-- Delivering does not change whom a learner trusts, and the slot that is next then fits in a word. -/
theorem leader_of_deliver {l l' : Learner} {delivered : List (Nat × Value)}
    (h : l.deliver = .ok (l', delivered)) : l'.leader = l.leader ∧ l'.next < Word.size := by
  obtain ⟨next, hfit, hret⟩ := Checked.bind_eq_ok_iff.mp h
  obtain ⟨hlt, rfl⟩ := Word.fit_eq_ok_iff.mp hfit
  obtain ⟨rfl, rfl⟩ := Prod.mk.inj (Except.ok.inj hret)
  exact ⟨rfl, hlt⟩

/-! ### Asking and answering -/

/-- Ranges of slots that a learner may ask for: they follow each other, from its next slot on, below a
slot that it has learned. -/
def AsksFor (l : Learner) (ranges : List (Nat × Nat)) : Prop :=
  ranges.Pairwise (fun a b => a.2 < b.1) ∧ ∃ last, (l.tally last).learned.isSome = true ∧
    ∀ range ∈ ranges, l.next ≤ range.1 ∧ range.1 ≤ range.2 ∧ range.2 < last

/-- A message that asks for slots, in the name of a learner. -/
def IsRequest (l : Learner) (o : Outgoing) : Prop :=
  ∃ target ranges, o = .unicast target (.catchUpRequest ⟨l.id, ranges⟩) ∧ l.AsksFor ranges

/-- Gaps follow each other, among the slots that are searched and the run that is open. -/
theorem gaps_cases (learned : Nat → Bool) (count slot : Nat) (start : Option Nat)
    (hstart : ∀ first, start = some first → first < slot) :
    (gaps learned count slot start).Pairwise (fun a b => a.2 < b.1) ∧
      ∀ range ∈ gaps learned count slot start,
        start.getD slot ≤ range.1 ∧ range.1 ≤ range.2 ∧ range.2 < slot + count := by
  fun_induction gaps learned count slot start with
  | case1 => simp
  | case2 slot first =>
    have hfirst := hstart first rfl
    simp only [List.pairwise_singleton, List.mem_singleton, forall_eq, Option.getD_some, true_and]
    omega
  | case3 count slot ih =>
    obtain ⟨hpairwise, hbounds⟩ := ih (by
      intro first hfirst
      split at hfirst
      · cases hfirst
      · cases hfirst
        omega)
    refine ⟨hpairwise, fun range hrange => ?_⟩
    have hrange := hbounds range hrange
    rw [Option.getD_none]
    split at hrange
    · rw [Option.getD_none] at hrange
      omega
    · rw [Option.getD_some] at hrange
      omega
  | case4 count slot first hlearned ih =>
    have hfirst := hstart first rfl
    obtain ⟨hpairwise, hbounds⟩ := ih (by simp)
    refine ⟨List.pairwise_cons.mpr ⟨fun range hrange => ?_, hpairwise⟩, fun range hrange => ?_⟩
    · have hrange := hbounds range hrange
      rw [Option.getD_none] at hrange
      omega
    · rcases List.mem_cons.mp hrange with rfl | hrange
      · rw [Option.getD_some]
        omega
      · have hrange := hbounds range hrange
        rw [Option.getD_none] at hrange
        rw [Option.getD_some]
        omega
  | case5 count slot first hlearned ih =>
    have hfirst := hstart first rfl
    obtain ⟨hpairwise, hbounds⟩ := ih (by rintro _ ⟨⟩; omega)
    refine ⟨hpairwise, fun range hrange => ?_⟩
    have hrange := hbounds range hrange
    rw [Option.getD_some] at hrange ⊢
    omega

theorem asksFor_of_missing {l : Learner} {ranges : List (Nat × Nat)} (h : l.missing = .ok ranges) :
    l.AsksFor ranges ∨ ranges = [] := by
  obtain ⟨held, hheld, hret⟩ := Checked.bind_eq_ok_iff.mp h
  split at hret
  · exact Or.inr (Except.ok.inj hret).symm
  rename_i last t hlast
  obtain rfl := Except.ok.inj hret
  obtain ⟨hmem, hlearned⟩ := List.mem_filter.mp (List.mem_of_getLast? hlast)
  obtain ⟨hnext, -, hget⟩ := (Window.mem_of_range hheld).mp hmem
  obtain ⟨hpairwise, hbounds⟩ := gaps_cases l.isLearned (last - l.next) l.next none (by simp)
  refine Or.inl ⟨hpairwise, last, ?_, fun range hrange => ?_⟩
  · rw [tally, hget]
    exact hlearned
  · have hrange := hbounds range hrange
    rw [Option.getD_none] at hrange
    omega

/-- A message that asks the one whom a learner trusts, another one, for all that the learner misses; that
is something. -/
def Aims (l : Learner) (o : Outgoing) : Prop :=
  ∃ leader ranges, o = .unicast leader (.catchUpRequest ⟨l.id, ranges⟩) ∧
    l.leader = some leader ∧ leader ≠ l.id ∧ l.missing = .ok ranges ∧ ranges ≠ []

theorem Aims.isRequest {l : Learner} {o : Outgoing} (h : l.Aims o) : l.IsRequest o := by
  obtain ⟨leader, ranges, rfl, -, -, hmissing, hsome⟩ := h
  exact ⟨leader, ranges, rfl, (asksFor_of_missing hmissing).resolve_right hsome⟩

/-- If no answer is awaited, missing slots are asked for; then one is. Otherwise nothing happens. -/
theorem aims_of_askForMissing {l l' : Learner} {out : List Outgoing}
    (h : l.askForMissing = .ok (l', out)) : l' = l ∧ out = [] ∨
      l.catchingUp = false ∧ l' = { l with catchingUp := true } ∧ ∃ o, out = [o] ∧ l'.Aims o := by
  unfold askForMissing at h
  split at h
  · cases h
    exact Or.inl ⟨rfl, rfl⟩
  rename_i hfree
  split at h
  · cases h
    exact Or.inl ⟨rfl, rfl⟩
  rename_i leader hleader
  split at h
  · cases h
    exact Or.inl ⟨rfl, rfl⟩
  rename_i hother
  obtain ⟨ranges, hmissing, hret⟩ := Checked.bind_eq_ok_iff.mp h
  split at hret
  · cases hret
    exact Or.inl ⟨rfl, rfl⟩
  · rename_i hsome
    cases hret
    exact Or.inr ⟨by simpa using hfree, rfl, _, rfl, leader, ranges, rfl, hleader, hother, hmissing,
      mt List.isEmpty_iff.mpr hsome⟩

/-- Asking for missing slots changes no more than whether an answer is awaited. -/
theorem askForMissing_cases {l l' : Learner} {out : List Outgoing}
    (h : l.askForMissing = .ok (l', out)) :
    (∃ catchingUp, l' = { l with catchingUp }) ∧ ∀ o ∈ out, l'.IsRequest o := by
  rcases aims_of_askForMissing h with ⟨rfl, rfl⟩ | ⟨-, rfl, o, rfl, haims⟩
  · exact ⟨⟨l'.catchingUp, rfl⟩, by simp⟩
  · exact ⟨⟨true, rfl⟩, by simpa using haims.isRequest⟩

/-- A learner that trusts nobody asks for nothing. -/
theorem askForMissing_of_leader_eq_none {l : Learner} (h : l.leader = none) :
    l.askForMissing = .ok (l, []) := by
  unfold askForMissing
  split
  · rfl
  · rw [h]

/-- A range that is asked for holds the slot. -/
def Covers (ranges : List (Nat × Nat)) (slot : Nat) : Prop :=
  ∃ range ∈ ranges, range.1 ≤ slot ∧ slot ≤ range.2

/-- An answer lists the slots that were asked for, are held and were delivered. They are in ascending
order if the ranges that were asked for follow each other. -/
theorem answer_cases {l : Learner} {m : CatchUpRequest} {o : Outgoing} (h : l.answer m = .ok o) :
    ∃ decided, o = .unicast m.sender (.catchUpResponse ⟨l.id, decided⟩) ∧
      (∀ slot value, (slot, value) ∈ decided ↔ Covers m.ranges slot ∧
        ∃ t, l.window.get? slot = some t ∧ t.decided = true ∧ t.learned = some value) ∧
      (m.ranges.Pairwise (fun a b => a.2 < b.1) → (decided.map Prod.fst).Pairwise (· < ·)) := by
  obtain ⟨held, hheld, hret⟩ := Checked.bind_eq_ok_iff.mp h
  obtain rfl := Except.ok.inj hret
  refine ⟨_, rfl, fun slot value => ?_, fun hranges => ?_⟩
  · rw [List.mem_filterMap]
    constructor
    · rintro ⟨⟨s, t⟩, hin, hdecided⟩
      obtain ⟨part, hpart, hin⟩ := List.mem_flatten.mp hin
      obtain ⟨range, hrange, hpart⟩ := Checked.exists_of_mem_mapM hheld hpart
      obtain ⟨hfirst, hlast, hget⟩ := (Window.mem_of_range hpart).mp hin
      dsimp only at hdecided
      split at hdecided
      · rename_i hmarked
        obtain ⟨v, hv, heq⟩ := Option.map_eq_some_iff.mp hdecided
        cases heq
        exact ⟨⟨range, hrange, hfirst, hlast⟩, t, hget, hmarked, hv⟩
      · cases hdecided
    · rintro ⟨⟨range, hrange, hfirst, hlast⟩, t, hget, hmarked, hv⟩
      obtain ⟨part, hpart, hrange⟩ := Checked.exists_mem_of_mapM hheld hrange
      refine ⟨(slot, t), List.mem_flatten.mpr ⟨part, hpart, ?_⟩, ?_⟩
      · exact (Window.mem_of_range hrange).mpr ⟨hfirst, hlast, hget⟩
      · simp [hmarked, hv]
  · have hsorted := Window.sorted_of_mapM_range hheld hranges
    rw [List.pairwise_map] at hsorted ⊢
    refine List.Pairwise.filterMap _ ?_ hsorted
    intro a b hlt d hd d' hd'
    dsimp only at hd hd'
    split at hd
    · split at hd'
      · obtain ⟨_, -, rfl⟩ := Option.map_eq_some_iff.mp hd
        obtain ⟨_, -, rfl⟩ := Option.map_eq_some_iff.mp hd'
        exact hlt
      · cases hd'
    · cases hd

/-! ### Taking answers -/

/-- Gives the slots of an answer their values, from the slot `next` on, where none is learned. -/
def take (next : Nat) (w : Window Tally) (decided : List (Nat × Value)) : Window Tally :=
  decided.foldl (fun window (slot, value) =>
    if slot < next then window
    else window.modify slot fun t => { t with learned := t.learned.or (some value) }) w

theorem low_take (next : Nat) (w : Window Tally) (decided : List (Nat × Value)) :
    (take next w decided).low = w.low := by
  refine List.foldlRecOn (motive := fun w' : Window Tally => w'.low = w.low) _ _ rfl ?_
  intro w' hw' d _
  dsimp only
  split
  · exact hw'
  · rw [Window.low_modify, hw']

theorem mem_of_lookup {decided : List (Nat × Value)} {slot : Nat} {value : Value}
    (h : decided.lookup slot = some value) : (slot, value) ∈ decided := by
  obtain ⟨before, after, rfl, -⟩ := List.lookup_eq_some_iff.mp h
  exact List.mem_append_right before List.mem_cons_self

/-- Of the values that an answer has for a slot, the first one counts. -/
theorem getD_get?_take (next : Nat) (w : Window Tally) (decided : List (Nat × Value))
    (slot : Nat) : ((take next w decided).get? slot).getD default =
      { (w.get? slot).getD default with
        learned := ((w.get? slot).getD default).learned.or
          (if next ≤ slot ∧ w.low ≤ slot then decided.lookup slot else none) } := by
  induction decided generalizing w with
  | nil => simp [take]
  | cons first rest ih =>
    obtain ⟨s, value⟩ := first
    have hcons : take next w ((s, value) :: rest) = take next (if s < next then w
        else w.modify s fun t => { t with learned := t.learned.or (some value) }) rest := rfl
    rw [hcons]
    by_cases hs : s < next
    · rw [if_pos hs, ih]
      by_cases hslot : slot = s
      · rw [if_neg (by omega), if_neg (by omega)]
      · simp [List.lookup_cons, beq_eq_false_iff_ne.mpr hslot]
    · rw [if_neg hs, ih, Window.getD_get?_modify, Window.low_modify]
      by_cases hslot : slot = s
      · subst hslot
        by_cases hlow : w.low ≤ slot <;> simp [hlow, Nat.not_lt.mp hs]
      · simp [List.lookup_cons, hslot, beq_eq_false_iff_ne.mpr hslot]

/-- What a learner makes of an answer: its tallies get the values, then it delivers. -/
theorem takeAnswer_cases {l l' : Learner} {m : CatchUpResponse} {d : Delivery}
    (h : l.takeAnswer m = .ok (l', d)) : Same l l' ∧ d.outbound = [] ∧
      Delivers l.next (fun slot => { l.tally slot with
        learned := (l.tally slot).learned.or
          (if l.next ≤ slot ∧ l.window.low ≤ slot then m.decided.lookup slot else none) })
        l' d.delivered ∧
      l'.window.low = if d.delivered = [] then l.window.low
        else max l.window.low (l'.next - l.retention) := by
  obtain ⟨⟨l₁, delivered⟩, hdeliver, hret⟩ := Checked.bind_eq_ok_iff.mp h
  obtain ⟨rfl, rfl⟩ := Prod.mk.inj (Except.ok.inj hret)
  obtain ⟨hsame, hdelivers⟩ := deliver_cases hdeliver
  have htaken : (fun slot => ((take l.next l.window m.decided).get? slot).getD default) = _ :=
    funext (getD_get?_take l.next l.window m.decided)
  exact ⟨⟨hsame.id_eq, hsame.quorum_eq, hsame.mode_eq, hsame.epochs_eq, hsame.retention_eq⟩, rfl,
    htaken ▸ hdelivers, low_take l.next l.window m.decided ▸ low_of_deliver hdeliver⟩

/-! ### Steps -/

/-- The vote counts for its slot, which is neither delivered nor given up. -/
def Counts (l : Learner) (m : Learn) : Prop :=
  l.next ≤ m.slot ∧ l.window.low ≤ m.slot ∧
    ((l.tally m.slot).count l.mode l.epochs m).isSome = true

instance (l : Learner) (m : Learn) : Decidable (l.Counts m) := by
  unfold Counts
  infer_instance

/-- What a step of a learner can be. -/
inductive Acts (l : Learner) : Input → Learner → Delivery → Prop
  /-- No tally changes. -/
  | quiet {x : Input} {l' : Learner} {outbound : List Outgoing} (id_eq : l'.id = l.id)
      (quorum_eq : l'.quorum = l.quorum) (mode_eq : l'.mode = l.mode)
      (epochs_eq : l'.epochs = l.epochs ∨ x = .setEpochs l'.epochs) (next_eq : l'.next = l.next)
      (tally_eq : l'.tally = l.tally) (isRequest : ∀ o ∈ outbound, l'.IsRequest o)
      (ignored : ∀ m, x = .learn m → ¬ l.Counts m) (retention_eq : l'.retention = l.retention)
      (low_eq : l'.window.low = l.window.low) : Acts l x l' { outbound }
  /-- It answers a request with slots that are learned and delivered. -/
  | answer {m : CatchUpRequest} {target : Nat} {decided : List (Nat × Value)}
      (learned_of_mem : ∀ slot value, (slot, value) ∈ decided →
        (l.tally slot).learned = some value)
      (decided_of_mem : ∀ slot value, (slot, value) ∈ decided →
        l.window.low ≤ slot ∧ (l.tally slot).decided = true)
      (sorted : m.ranges.Pairwise (fun a b => a.2 < b.1) →
        (decided.map Prod.fst).Pairwise (· < ·)) :
      Acts l (.request m) l
        { outbound := [.unicast target (.catchUpResponse ⟨l.id, decided⟩)] }
  /-- It counts a vote that does not settle its slot. -/
  | count {m : Learn} {l' : Learner} {t : Tally} (same : Same l l') (counts : l.Counts m)
      (next_eq : l'.next = l.next) (count_eq : (l.tally m.slot).count l.mode l.epochs m = some t)
      (unsettled : l.mode.settles t.votes l.quorum t.disputed = false)
      (tally_eq : l'.tally = update l.tally m.slot t) (low_eq : l'.window.low = l.window.low) :
      Acts l (.learn m) l' {}
  /-- It counts the vote that settles a slot, and delivers. -/
  | settle {m : Learn} {l' : Learner} {t : Tally} {delivered : List (Nat × Value)}
      {outbound : List Outgoing} (same : Same l l') (counts : l.Counts m)
      (count_eq : (l.tally m.slot).count l.mode l.epochs m = some t)
      (settled : l.mode.settles t.votes l.quorum t.disputed = true)
      (delivers : Delivers l.next (update l.tally m.slot { t with learned := t.candidate }) l'
        delivered)
      (isRequest : ∀ o ∈ outbound, l'.IsRequest o) (low_eq : l'.window.low =
        if delivered = [] then l.window.low else max l.window.low (l'.next - l.retention)) :
      Acts l (.learn m) l' { delivered, outbound }
  /-- It takes the slots of an answer, and delivers. -/
  | take {m : CatchUpResponse} {l' : Learner} {tally : Nat → Tally}
      {delivered : List (Nat × Value)} (same : Same l l')
      (takes : ∀ slot, Tally.Takes m slot (l.tally slot) (tally slot))
      (delivers : Delivers l.next tally l' delivered) (low_eq : l'.window.low =
        if delivered = [] then l.window.low else max l.window.low (l'.next - l.retention)) :
      Acts l (.response m) l' { delivered }

/-- A vote is ignored, or it counts for its slot. -/
theorem acts_of_learn {l l' : Learner} {m : Learn} {d : Delivery} (h : l.learn m = .ok (l', d)) :
    Acts l (.learn m) l' d := by
  unfold learn at h
  dsimp only at h
  split at h
  · rename_i hslot
    cases h
    refine .quiet rfl rfl rfl (Or.inl rfl) rfl rfl (by simp) ?_ rfl rfl
    rintro _ ⟨⟩ ⟨hnext, -⟩
    omega
  rename_i hslot
  have htouched : (fun s => ((l.window.touch m.slot).get? s).getD default) = l.tally :=
    funext fun s => Window.getD_get?_touch l.window m.slot s
  split at h
  · rename_i hnone
    cases h
    refine .quiet rfl rfl rfl (Or.inl rfl) rfl htouched (by simp) ?_ rfl
      (Window.low_touch _ _)
    rintro _ ⟨⟩ ⟨-, hlow, hcount⟩
    -- the slot is held, so it is the tally that does not count the vote
    rw [Window.get?_touch, if_pos ⟨hlow, Nat.le_refl _⟩, Option.bind_some] at hnone
    rw [tally, hnone] at hcount
    cases hcount
  rename_i t ht
  obtain ⟨t₀, hget, hcount⟩ := Option.bind_eq_some_iff.mp ht
  have hlow : (l.window.touch m.slot).low ≤ m.slot :=
    Window.low_le_of_get? hget
  have ht₀ : l.tally m.slot = t₀ := by
    rw [← congrFun htouched m.slot]
    exact congrArg (Option.getD · default) hget
  rw [← ht₀] at hcount
  have hcounts : l.Counts m :=
    ⟨Nat.not_lt.mp hslot, Window.low_touch l.window m.slot ▸ hlow, by rw [hcount]; rfl⟩
  have hmodified : ∀ t' : Tally, (fun s =>
      (((l.window.touch m.slot).modify m.slot fun _ => t').get? s).getD default) =
        update l.tally m.slot t' := by
    intro t'
    funext s
    rw [Window.getD_get?_modify, update_apply, ← congrFun htouched s]
    by_cases hs : s = m.slot
    · rw [if_pos ⟨hs, hlow⟩, if_pos hs]
    · rw [if_neg (fun hc => hs hc.1), if_neg hs]
  split at h
  · rename_i hopen
    cases h
    refine .count ⟨rfl, rfl, rfl, rfl, rfl⟩ hcounts rfl hcount ?_ (hmodified t) ?_
    · simpa using hopen
    · simp only [Window.low_modify, Window.low_touch]
  rename_i hsettles
  rw [Bool.not_eq_true, Bool.not_eq_false'] at hsettles
  obtain ⟨⟨l₁, delivered⟩, hdeliver, hrest⟩ := Checked.bind_eq_ok_iff.mp h
  obtain ⟨hsame, hdelivers⟩ := deliver_cases hdeliver
  have hdelivers' : Delivers l.next (update l.tally m.slot { t with learned := t.candidate }) l₁
      delivered := hmodified _ ▸ hdelivers
  have hlow' := low_of_deliver hdeliver
  simp only [Window.low_modify, Window.low_touch] at hlow'
  dsimp only at hrest
  split at hrest
  · obtain ⟨⟨l₂, outbound⟩, hask, hret⟩ := Checked.bind_eq_ok_iff.mp hrest
    obtain ⟨rfl, rfl⟩ := Prod.mk.inj (Except.ok.inj hret)
    obtain ⟨⟨catchingUp, rfl⟩, hrequest⟩ := askForMissing_cases hask
    exact .settle
      ⟨hsame.id_eq, hsame.quorum_eq, hsame.mode_eq, hsame.epochs_eq, hsame.retention_eq⟩
      hcounts hcount hsettles ⟨hdelivers'.slots, hdelivers'.learned_of_mem, hdelivers'.next_eq,
        hdelivers'.tally_cases, hdelivers'.stops, hdelivers'.tally_eq⟩ hrequest hlow'
  · obtain ⟨rfl, rfl⟩ := Prod.mk.inj (Except.ok.inj hrest)
    exact .settle
      ⟨hsame.id_eq, hsame.quorum_eq, hsame.mode_eq, hsame.epochs_eq, hsame.retention_eq⟩
      hcounts hcount hsettles hdelivers' (by simp) hlow'

/-- Taking an answer makes slots learned with values of the answer, and changes no other tally. -/
theorem acts_of_takeAnswer {l l' : Learner} {m : CatchUpResponse} {d : Delivery}
    (h : l.takeAnswer m = .ok (l', d)) : Acts l (.response m) l' d := by
  obtain ⟨hsame, hout, hdelivers, hlow⟩ := takeAnswer_cases h
  obtain ⟨delivered, outbound⟩ := d
  obtain rfl : outbound = [] := hout
  refine .take hsame (fun slot => ?_) hdelivers hlow
  cases hlearned : (l.tally slot).learned with
  | some v =>
    left
    rw [Option.some_or, ← hlearned]
  | none =>
    rw [Option.none_or]
    split
    · cases hvalue : m.decided.lookup slot with
      | none =>
        left
        rw [← hlearned]
      | some value => exact Or.inr ⟨value, mem_of_lookup hvalue, hlearned, rfl⟩
    · left
      rw [← hlearned]

/-- Every step is one of these. -/
theorem acts_of_act {l l' : Learner} {x : Input} {d : Delivery} (h : l.act x = .ok (l', d)) :
    Acts l x l' d := by
  cases x with
  | trust leader =>
    cases h
    exact .quiet rfl rfl rfl (Or.inl rfl) rfl rfl (by simp) (by simp) rfl rfl
  | learn m => exact acts_of_learn h
  | request m =>
    obtain ⟨o, hanswer, hret⟩ := Checked.bind_eq_ok_iff.mp h
    cases hret
    obtain ⟨decided, rfl, hmem, hsorted⟩ := answer_cases hanswer
    refine .answer (fun slot value hin => ?_) (fun slot value hin => ?_) hsorted
    · obtain ⟨-, t, hget, -, hlearned⟩ := (hmem slot value).mp hin
      rw [tally, hget]
      exact hlearned
    · obtain ⟨-, t, hget, hdecided, -⟩ := (hmem slot value).mp hin
      rw [tally, hget]
      exact ⟨Window.low_le_of_get? hget, hdecided⟩
  | response m => exact acts_of_takeAnswer h
  | askAgain =>
    obtain ⟨⟨l₁, outbound⟩, hask, hret⟩ := Checked.bind_eq_ok_iff.mp h
    obtain ⟨rfl, rfl⟩ := Prod.mk.inj (Except.ok.inj hret)
    obtain ⟨⟨catchingUp, rfl⟩, hrequest⟩ := askForMissing_cases hask
    exact .quiet rfl rfl rfl (Or.inl rfl) rfl rfl hrequest (by simp) rfl rfl
  | setEpochs epochs =>
    cases h
    exact .quiet rfl rfl rfl (Or.inr rfl) rfl rfl (by simp) (by simp) rfl rfl

/-- A learner keeps to its rules, and to its view of the membership until it gets a new one. -/
theorem view_of_act {l l' : Learner} {x : Input} {d : Delivery} (h : l.act x = .ok (l', d)) :
    l'.quorum = l.quorum ∧ l'.mode = l.mode ∧
      (l'.epochs = l.epochs ∨ x = .setEpochs l'.epochs) := by
  cases acts_of_act h with
  | quiet _ quorum_eq mode_eq epochs_eq => exact ⟨quorum_eq, mode_eq, epochs_eq⟩
  | answer => exact ⟨rfl, rfl, Or.inl rfl⟩
  | count same => exact ⟨same.quorum_eq, same.mode_eq, Or.inl same.epochs_eq⟩
  | settle same => exact ⟨same.quorum_eq, same.mode_eq, Or.inl same.epochs_eq⟩
  | take same => exact ⟨same.quorum_eq, same.mode_eq, Or.inl same.epochs_eq⟩

/-- A learner keeps its name, and speaks in no other. -/
theorem author_of_act {l l' : Learner} {x : Input} {d : Delivery} (h : l.act x = .ok (l', d)) :
    l'.id = l.id ∧ ∀ o ∈ d.outbound, o.author = (.learner, l.id) := by
  have hrequest : ∀ o, l'.id = l.id → l'.IsRequest o → o.author = (.learner, l.id) := by
    rintro o hid ⟨target, ranges, rfl, -⟩
    exact congrArg (Role.learner, ·) hid
  cases acts_of_act h with
  | quiet id_eq _ _ _ _ _ isRequest =>
    exact ⟨id_eq, fun o ho => hrequest o id_eq (isRequest o ho)⟩
  | answer =>
    refine ⟨rfl, fun o ho => ?_⟩
    obtain rfl := List.mem_singleton.mp ho
    rfl
  | count same => exact ⟨same.id_eq, by simp⟩
  | settle same _ _ _ _ isRequest =>
    exact ⟨same.id_eq, fun o ho => hrequest o same.id_eq (isRequest o ho)⟩
  | take same => exact ⟨same.id_eq, by simp⟩

/-- What a vote does besides being counted: nothing, or slots are delivered and missing ones may be asked
for. -/
theorem learn_cases {l l' : Learner} {m : Learn} {d : Delivery} (h : l.learn m = .ok (l', d)) :
    (∃ highestRound window, l' = { l with highestRound, window } ∧ d = {}) ∨
      ∃ highestRound window l₁ delivered outbound,
        deliver { l with highestRound, window } = .ok (l₁, delivered) ∧ d = { delivered, outbound } ∧
          (l' = l₁ ∧ outbound = [] ∨ l₁.askForMissing = .ok (l', outbound)) := by
  unfold learn at h
  dsimp only at h
  split at h
  · cases h
    exact Or.inl ⟨_, _, rfl, rfl⟩
  split at h
  · cases h
    exact Or.inl ⟨_, _, rfl, rfl⟩
  split at h
  · cases h
    exact Or.inl ⟨_, _, rfl, rfl⟩
  obtain ⟨⟨l₁, delivered⟩, hdeliver, hrest⟩ := Checked.bind_eq_ok_iff.mp h
  dsimp only at hrest
  split at hrest
  · obtain ⟨⟨l₂, outbound⟩, hask, hret⟩ := Checked.bind_eq_ok_iff.mp hrest
    cases hret
    exact Or.inr ⟨_, _, l₁, delivered, outbound, hdeliver, rfl, Or.inr hask⟩
  · cases hrest
    exact Or.inr ⟨_, _, _, delivered, [], hdeliver, rfl, Or.inl ⟨rfl, rfl⟩⟩

/-- Votes do not change whom a learner trusts, and the slot that is next stays within a word. -/
theorem leader_of_learn {l l' : Learner} {m : Learn} {d : Delivery} (h : l.learn m = .ok (l', d)) :
    l'.leader = l.leader ∧ (l.next < Word.size → l'.next < Word.size) := by
  rcases learn_cases h with ⟨_, _, rfl, rfl⟩ | ⟨_, _, l₁, delivered, outbound, hdeliver, rfl, hrest⟩
  · exact ⟨rfl, fun hlt => hlt⟩
  obtain ⟨hleader, hnext⟩ := leader_of_deliver hdeliver
  rcases hrest with ⟨rfl, rfl⟩ | hask
  · exact ⟨hleader, fun _ => hnext⟩
  · obtain ⟨⟨catchingUp, rfl⟩, -⟩ := askForMissing_cases hask
    exact ⟨hleader, fun _ => hnext⟩

/-- A learner delivers consecutive slots, from the next one on. -/
theorem next_of_act {l l' : Learner} {x : Input} {d : Delivery} (h : l.act x = .ok (l', d)) :
    l'.next = l.next + d.delivered.length ∧
      d.delivered.map Prod.fst = List.range' l.next d.delivered.length := by
  cases acts_of_act h with
  | quiet _ _ _ _ next_eq => exact ⟨next_eq, rfl⟩
  | answer => exact ⟨rfl, rfl⟩
  | count _ _ next_eq => exact ⟨next_eq, rfl⟩
  | settle _ _ _ _ delivers => exact ⟨delivers.next_eq, delivers.slots⟩
  | take _ _ delivers => exact ⟨delivers.next_eq, delivers.slots⟩

/-- A learner that delivers gives up what falls behind its retention, and nothing else. -/
theorem low_of_act {l l' : Learner} {x : Input} {d : Delivery} (h : l.act x = .ok (l', d)) :
    l'.retention = l.retention ∧ l'.window.low =
      if d.delivered = [] then l.window.low else max l.window.low (l'.next - l.retention) := by
  cases acts_of_act h with
  | quiet _ _ _ _ _ _ _ _ retention_eq low_eq => exact ⟨retention_eq, low_eq⟩
  | answer => exact ⟨rfl, rfl⟩
  | count same _ _ _ _ _ low_eq => exact ⟨same.retention_eq, low_eq⟩
  | settle same _ _ _ _ _ low_eq => exact ⟨same.retention_eq, low_eq⟩
  | take same _ _ low_eq => exact ⟨same.retention_eq, low_eq⟩

end Learner

end ReplicatedLog
