import ReplicatedLog.Proofs.Records
import Mathlib.Data.List.Perm.Basic
import Mathlib.Order.MinMax

/-!
# Taking over votes as a join

An acceptor that takes over the votes of another one ends up with the later of the two votes for each
slot. If two votes for one slot in one round are always for one value, that is a join: snapshots can be
taken over in any order, and a second time without effect (`Acceptor.takeOver_join`).

A snapshot is a list of votes, in any order, with repeats and gaps, that are joined to the records of the
window one after the other (`Window.joinVotes`). Any two of them can change places, since joining to
different records does not interfere, and of two votes for one slot the later one stays. So the list can
be rearranged at will. What it does to the window is told slot by slot (`Acceptor.TakesOver`): the slots
up to the highest one in the list become held, with blank records where there is no vote.
-/

namespace ReplicatedLog

/-- The votes for a slot in a round are for one value. -/
def OneValueEach (votes : List Report) : Prop :=
  ∀ r ∈ votes, ∀ r' ∈ votes, r.slot = r'.slot → r.round = r'.round → r.value = r'.value

instance (votes : List Report) : Decidable (OneValueEach votes) :=
  inferInstanceAs (Decidable (∀ r ∈ votes, ∀ r' ∈ votes, _ → _ → _))

/-- What is not later is not joined. -/
theorem Vote.join_of_le {v : Vote} {r : Report} (h : r.round ≤ v.round) : v.join r = v :=
  if_neg (not_lt_of_ge h)

/-- Two votes can be joined to a record in any order. -/
theorem Vote.join_comm {r r' : Report} (hsame : r.round = r'.round → r.value = r'.value) (v : Vote) :
    (v.join r).join r' = (v.join r').join r := by
  unfold join
  rcases lt_trichotomy r.round r'.round with hlt | heq | hgt
  · by_cases hbelow : v.round < r.round
    · simp [hbelow, hbelow.trans hlt, hlt, hlt.asymm]
    · by_cases hbelow' : v.round < r'.round <;> simp [hbelow, hbelow', hlt.asymm]
  · simp [heq, hsame heq]
  · by_cases hbelow : v.round < r'.round
    · simp [hbelow, hbelow.trans hgt, hgt, hgt.asymm]
    · by_cases hbelow' : v.round < r.round <;> simp [hbelow, hbelow', hgt.asymm]

/-! ### Joining votes to a window -/

namespace Window

variable {w : Window Vote} {votes votes' : List Report}

/-- Changing a record makes its slot held and all from the low mark up to it, and no others. -/
theorem isSome_get?_modify {α : Type} [Inhabited α] (w : Window α) (slot t : Nat) (f : α → α) :
    ((w.modify slot f).get? t).isSome ↔ (w.get? t).isSome ∨ w.low ≤ t ∧ t ≤ slot := by
  have htouched : ((w.touch slot).get? t).isSome ↔ (w.get? t).isSome ∨ w.low ≤ t ∧ t ≤ slot := by
    rw [get?_touch]
    split
    · rename_i h
      exact iff_of_true rfl (Or.inr h)
    · rename_i h
      exact (or_iff_left h).symm
  rw [← htouched, get?_modify]
  split
  · rw [Option.isSome_map]
  · rfl

/-- The window after votes were joined to its records, one after the other. -/
def joinVotes (w : Window Vote) (votes : List Report) : Window Vote :=
  votes.foldl (fun w r => w.modify r.slot (·.join r)) w

theorem joinVotes_append (w : Window Vote) (votes votes' : List Report) :
    w.joinVotes (votes ++ votes') = (w.joinVotes votes).joinVotes votes' := List.foldl_append

/-- Votes can be joined in any order. -/
theorem joinVotes_perm (hsame : OneValueEach votes) (hperm : votes.Perm votes') (w : Window Vote) :
    w.joinVotes votes = w.joinVotes votes' := by
  refine hperm.foldl_eq' (fun r hr r' hr' w => ?_) w
  by_cases hslot : r.slot = r'.slot
  · rw [hslot, modify_modify, modify_modify]
    congr 1
    funext v
    exact Vote.join_comm (fun hround => (hsame r hr r' hr' hslot hround)) v
  · exact modify_comm w hslot _ _

/-- Votes leave no trace in a window that holds their slots with records at least as late. -/
theorem joinVotes_eq_self (h : ∀ r ∈ votes, w.low ≤ r.slot →
    (w.get? r.slot).isSome ∧ r.round ≤ ((w.get? r.slot).getD default).round) :
    w.joinVotes votes = w := by
  induction votes with
  | nil => rfl
  | cons r votes ih =>
    obtain ⟨hr, hvotes⟩ := List.forall_mem_cons.mp h
    have hfirst : w.modify r.slot (·.join r) = w := by
      refine modify_eq_self w fun hlow => ?_
      obtain ⟨hheld, hround⟩ := hr hlow
      exact ⟨(isSome_get?_iff.mp hheld).2, Vote.join_of_le hround⟩
    rw [joinVotes, List.foldl_cons, hfirst]
    exact ih hvotes

/-- The slots from the low mark up to that of a vote become held. -/
theorem isSome_get?_joinVotes (w : Window Vote) (votes : List Report) (slot : Nat) :
    ((w.joinVotes votes).get? slot).isSome ↔
      (w.get? slot).isSome ∨ w.low ≤ slot ∧ ∃ r ∈ votes, slot ≤ r.slot := by
  induction votes generalizing w with
  | nil => simp [joinVotes]
  | cons r votes ih =>
    rw [joinVotes, List.foldl_cons, ← joinVotes, ih, low_modify, isSome_get?_modify]
    simp only [List.exists_mem_cons_iff]
    tauto

end Window

/-! ### Taking over a snapshot -/

namespace Acceptor

variable {a a' : Acceptor} {s s' : Snapshot}

/-- What it means that an acceptor `a`, which is `a'` afterwards, takes over a snapshot. -/
structure TakesOver (a : Acceptor) (s : Snapshot) (a' : Acceptor) : Prop where
  /-- Its round is the higher one of both, and nothing else changes apart from the window. -/
  eq : a' = { a with round := max a.round s.round, window := a'.window }
  /-- The low mark stays where it was. -/
  low_eq : a'.window.low = a.window.low
  /-- What was given up stays so; from the low mark on, slots are held up to the highest vote. -/
  held_iff : ∀ slot, (a'.window.get? slot).isSome ↔
    (a.window.get? slot).isSome ∨ a.window.low ≤ slot ∧ ∃ r ∈ s.votes, slot ≤ r.slot
  /-- A slot without a vote in the snapshot keeps its record. -/
  record_eq : ∀ slot, (∀ r ∈ s.votes, r.slot ≠ slot) → a'.record slot = a.record slot
  /-- A record is the old one or that of a vote in the snapshot, -/
  record_cases : ∀ slot, a'.record slot = a.record slot ∨
    ∃ r ∈ s.votes, r.slot = slot ∧ a'.record slot = ⟨r.round, some r.value⟩
  /-- of a round that is at least that of the old one -/
  own_le : ∀ slot, (a.record slot).round ≤ (a'.record slot).round
  /-- and at least those of all votes for the slot, if it is not given up. -/
  handed_le : ∀ r ∈ s.votes, a.window.low ≤ r.slot → r.round ≤ (a'.record r.slot).round

theorem takeOver_eq (a : Acceptor) (s : Snapshot) : a.takeOver s =
    { a with round := max a.round s.round, window := a.window.joinVotes s.votes } := rfl

theorem takesOver (a : Acceptor) (s : Snapshot) : TakesOver a s (a.takeOver s) := by
  obtain ⟨hlow, hrecord⟩ := record_takeOver a s
  -- below the low mark all records are blank
  have hcases : ∀ slot, (a.takeOver s).record slot = a.record slot ∨
      (a.takeOver s).record slot = latestFrom slot (a.record slot) s.votes := by
    intro slot
    rcases Nat.lt_or_ge slot a.window.low with hlt | hge
    · left
      rw [record_of_lt hlt, record_of_lt (hlow.symm ▸ hlt)]
    · exact Or.inr (hrecord slot hge)
  constructor
  · rfl
  · exact hlow
  · exact Window.isSome_get?_joinVotes a.window s.votes
  · intro slot hnone
    rcases hcases slot with heq | heq
    · exact heq
    · rcases latestFrom_cases slot (a.record slot) s.votes with hown | ⟨r, hr, hslot, -⟩
      · exact heq.trans hown
      · exact absurd hslot (hnone r hr)
  · intro slot
    rcases hcases slot with heq | heq
    · exact Or.inl heq
    · rw [heq]
      exact latestFrom_cases slot (a.record slot) s.votes
  · intro slot
    rcases hcases slot with heq | heq
    · exact (congrArg Vote.round heq).ge
    · rw [heq]
      exact round_le_latestFrom slot (a.record slot) s.votes
  · intro r hr hr'
    rw [hrecord r.slot hr']
    exact round_le_latestFrom_of_mem hr _

/-- Snapshots can be taken over in any order. -/
theorem takeOver_comm (hsame : OneValueEach (s.votes ++ s'.votes)) (a : Acceptor) :
    (a.takeOver s).takeOver s' = (a.takeOver s').takeOver s := by
  have hwindow : (a.window.joinVotes s.votes).joinVotes s'.votes =
      (a.window.joinVotes s'.votes).joinVotes s.votes := by
    rw [← Window.joinVotes_append, ← Window.joinVotes_append]
    exact Window.joinVotes_perm hsame List.perm_append_comm a.window
  simp only [takeOver_eq, hwindow, max_right_comm a.round s.round]

/-- A snapshot that was taken over leaves no trace when it is taken over again. -/
theorem takeOver_takeOver (a : Acceptor) (s : Snapshot) :
    (a.takeOver s).takeOver s = a.takeOver s := by
  have htakes := takesOver a s
  have hwindow : (a.takeOver s).window.joinVotes s.votes = (a.takeOver s).window := by
    refine Window.joinVotes_eq_self fun r hr hlow => ?_
    rw [htakes.low_eq] at hlow
    exact ⟨(htakes.held_iff r.slot).mpr (Or.inr ⟨hlow, r, hr, le_rfl⟩), htakes.handed_le r hr hlow⟩
  rw [takeOver_eq (a.takeOver s), hwindow]
  simp [takeOver_eq]

/-- **Taking over snapshots is a join**, if in two of them the votes for a slot in a round are for one
value. They can be taken over in either order, a second time without effect, and each gives every slot
that is not given up the latest of its own vote and those in the snapshot. -/
theorem takeOver_join (hsame : OneValueEach (s.votes ++ s'.votes)) (a : Acceptor) :
    (a.takeOver s).takeOver s' = (a.takeOver s').takeOver s ∧
      (a.takeOver s).takeOver s = a.takeOver s ∧ TakesOver a s (a.takeOver s) :=
  ⟨takeOver_comm hsame a, takeOver_takeOver a s, takesOver a s⟩

/-- An acceptor that voted for slots 1 and 2 and gave up slot 1 takes over two snapshots, which have votes
for slot 1 and several for slots 2 and 5, some of them twice. Slot 2 gets the latest of three votes, slots 4
and 5 get votes, and slot 3 is held without one. -/
theorem takeOver_join_of_gaps : ∃ (a : Acceptor) (s s' : Snapshot),
    OneValueEach (s.votes ++ s'.votes) ∧
    a.castVotes = [(2, ⟨⟨1, 0⟩, some (.appBatch [66])⟩)] ∧ a.window.low = 2 ∧
    (a.takeOver s).takeOver s' = (a.takeOver s').takeOver s ∧
    (a.takeOver s).takeOver s = a.takeOver s ∧ TakesOver a s (a.takeOver s) ∧
    ((a.takeOver s).takeOver s').round = ⟨3, 2⟩ ∧
    ((a.takeOver s).takeOver s').window.toList = [(2, ⟨⟨1, 2⟩, some (.appBatch [67])⟩), (3, default),
      (4, ⟨⟨3, 2⟩, some (.appBatch [69])⟩), (5, ⟨⟨2, 1⟩, some (.appBatch [68])⟩)] := by
  let e : EpochVector := .zeros 3
  let v (n : UInt8) : Value := .appBatch [n]
  let a₀ : Acceptor := { id := 1, epochs := e, retention := 10, mode := .plain }
  let a₁ : Acceptor := (a₀.accept ⟨0, ⟨1, 0⟩, 1, v 65, e⟩).1
  let a : Acceptor := (a₁.accept ⟨0, ⟨1, 0⟩, 2, v 66, e⟩).1.raiseLow 2
  let s : Snapshot := ⟨⟨2, 1⟩, [⟨5, ⟨2, 1⟩, v 68⟩, ⟨1, ⟨2, 1⟩, v 65⟩, ⟨2, ⟨1, 2⟩, v 67⟩,
    ⟨5, ⟨1, 2⟩, v 70⟩, ⟨5, ⟨2, 1⟩, v 68⟩]⟩
  let s' : Snapshot := ⟨⟨3, 2⟩, [⟨2, ⟨1, 1⟩, v 71⟩, ⟨5, ⟨2, 1⟩, v 68⟩, ⟨4, ⟨3, 2⟩, v 69⟩]⟩
  have hsame : OneValueEach (s.votes ++ s'.votes) := by decide +kernel
  obtain ⟨hcomm, hagain, htakes⟩ := takeOver_join hsame a
  exact ⟨a, s, s', hsame, by decide +kernel, by decide +kernel, hcomm, hagain, htakes,
    by decide +kernel, by decide +kernel⟩

end Acceptor

end ReplicatedLog
