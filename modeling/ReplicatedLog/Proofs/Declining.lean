import ReplicatedLog.Proofs.Handover

/-!
# Declined messages

What is left of a message that an acceptor does not answer. A request for a promise leaves nothing. Nor
does a proposal, with one exception: it may repeat a vote that the acceptor took over from another one, for
a slot that is further ahead of the low mark than the retention. Before the acceptor sees that it has the
vote, it gives up the slots that are too far below, as it does for every proposal that it looks at. So an
unanswered message can cost it votes.

For a vote of its own that cannot be, since it gave up those slots when it voted (`Run.cast_within`).
-/

namespace ReplicatedLog

namespace Acceptor

variable {Fine : Input → Prop} {a a' : Acceptor} {past : Past} {m : Accept}

/-- What an acceptor voted for is not further ahead of its low mark than its retention. -/
theorem Run.cast_within (h : Run Fine a past) {l : Learn} (hl : l ∈ casts past) :
    l.slot ≤ a.window.low + a.retention := by
  induction h with
  | start => cases hl
  | @step a a' x out past run _ hx act_eq ih =>
    obtain ⟨hretention, -⟩ := low_of_act hx act_eq
    have hlow := (recording_of_act run.follows.round_le act_eq).low_le
    rw [casts_append_singleton] at hl
    rcases List.mem_append.mp hl with hl | hl
    · have hle := ih hl
      omega
    · cases acts_of_act hx act_eq with
      | quiet => cases hl
      | promise => cases hl
      | vote _ _ _ _ _ _ _ _ slot_le =>
        obtain rfl := List.mem_singleton.mp hl
        rwa [hretention]
  | @takeOver a b past past' slot s _ _ _ ih =>
    rw [casts_append_singleton] at hl
    rcases List.mem_append.mp hl with hl | hl
    · rw [(record_takeOver a s).1]
      exact ih hl
    · cases hl

/-- The proposal repeats a vote that the acceptor took over and did not cast, for a slot that is further
ahead of its low mark than its retention. -/
structure Repeats (past : Past) (a : Acceptor) (m : Accept) : Prop where
  /-- The vote is the latest one for its slot, -/
  record_eq : (a.record m.slot).round = m.round
  /-- was taken over -/
  handed : ∃ t ∈ past, ∃ r ∈ t.input.handed, r.slot = m.slot ∧ r.round = m.round
  /-- and was not cast. -/
  not_cast : ∀ l ∈ casts past, l.slot = m.slot → l.round ≠ m.round
  /-- Some slots are too far below. -/
  beyond : a.window.low < m.slot - a.retention

/-- A vote that is held for a slot too far ahead was taken over. -/
theorem Run.repeats (h : Run Fine a past) (hreal : m.round.isBottom = false)
    (hrecord : (a.record m.slot).round = m.round) (hbeyond : a.window.low < m.slot - a.retention) :
    Repeats past a m := by
  have hnot : ∀ l ∈ casts past, l.slot = m.slot → l.round ≠ m.round := by
    intro l hl hslot _
    have hwithin := h.cast_within hl
    omega
  refine ⟨hrecord, ?_, hnot, hbeyond⟩
  -- the latest vote for the slot was offered, and it was not cast
  have hlatest := h.follows.record_eq m.slot (by omega)
  obtain hblank | ⟨round, value, -, hvote⟩ := latest_cases (offers past) m.slot
  · rw [← hrecord, hlatest, hblank] at hreal
    cases hreal
  have hreport : (latest (offers past) m.slot).report? m.slot = some ⟨m.slot, round, value⟩ := by
    rw [hvote]
    rfl
  obtain rfl : round = m.round := by rw [← hrecord, hlatest, hvote]
  obtain ⟨t, ht, hoffered⟩ := List.mem_flatMap.mp (isTop_of_latest hreport).mem
  rcases List.mem_append.mp hoffered with hhanded | hcast
  · exact ⟨t, ht, _, hhanded, rfl, rfl⟩
  · obtain ⟨l, hl, heq⟩ := List.mem_map.mp hcast
    obtain ⟨hslot, hround, -⟩ := Report.mk.inj heq
    exact absurd hround (hnot l (List.mem_flatMap.mpr ⟨t, ht, hl⟩) hslot)

/-- Giving up slots below one that is held does not change how far the window extends. -/
theorem highest_raiseLow {slot below : Nat} (hheld : (a.window.get? slot).isSome)
    (hbelow : below ≤ slot) : (a.raiseLow below).window.highest = a.window.highest := by
  obtain ⟨hlow, hlength⟩ := Window.isSome_get?_iff.mp hheld
  have hraised := Window.length_raise a.window below
  have hmark := Window.low_raise a.window below
  unfold raiseLow Window.highest
  unfold Window.length at hlength hraised
  dsimp only
  omega

/-- A slot whose record shows a real round is held. -/
theorem isSome_get?_of_record {slot : Nat} (h : (a.record slot).round.isBottom = false) :
    (a.window.get? slot).isSome := by
  unfold record at h
  cases hget : a.window.get? slot with
  | none =>
    rw [hget] at h
    cases h
  | some vote => rfl

/-- A proposal for a real round that is not answered leaves the acceptor as it was, or it repeats its
vote for the slot, and slots are given up at most. -/
theorem eq_of_accept_none (hreal : m.round.isBottom = false) (h : a.accept m = (a', none)) :
    a' = a ∨ (a.record m.slot).round = m.round ∧ a' = a.raiseLow (m.slot - a.retention) := by
  rw [accept_eq] at h
  split at h
  · exact Or.inl (Prod.mk.inj h).1.symm
  split at h
  · rename_i hdeclined
    obtain rfl := (Prod.mk.inj h).1
    by_cases hlow : m.slot < a.window.low
    · -- the slot was given up long ago
      left
      have hretained : a.retainedFor m.slot = a.window := if_pos (by omega)
      rw [hretained, Window.touch_eq_self a.window fun hc => absurd hlow (by omega)]
    · right
      have hnot : ¬ m.slot < (a.retainedFor m.slot).low := by
        rw [retainedFor, Window.low_raise]
        omega
      have hrecord := hdeclined.resolve_left hnot
      have hheld := Window.isSome_get?_iff.mp (isSome_get?_of_record (hrecord ▸ hreal))
      refine ⟨hrecord, ?_⟩
      rw [Window.touch_eq_self]
      · rfl
      · intro _
        simp only [retainedFor, Window.low_raise, Window.length_raise]
        omega
  · cases h

/-- **What a declined message changes.** After a run, a request for a promise that is not answered leaves
the acceptor as it was. So does a proposal for a real round, unless it repeats a vote that was taken over.
Then slots too far below that vote are given up and nothing else happens: the round, the extent of the
window and the records that are left are the same. -/
theorem Run.declined (h : Run Fine a past) :
    (∀ (m : Prepare) (a' : Acceptor), a.prepare m = .ok (a', none) → a' = a) ∧
      ∀ (m : Accept) (a' : Acceptor), m.round.isBottom = false → a.accept m = (a', none) →
        a' = a ∨ Repeats past a m ∧ a' = a.raiseLow (m.slot - a.retention) ∧
          a'.window.highest = a.window.highest ∧
          ∀ slot, a'.window.low ≤ slot → a'.window.get? slot = a.window.get? slot := by
  constructor
  · intro m a' hprepare
    rcases prepare_cases hprepare with ⟨-, heq, -⟩ | ⟨-, -, _, hanswer, -⟩
    · exact heq
    · cases hanswer
  · intro m a' hreal haccept
    rcases eq_of_accept_none hreal haccept with heq | ⟨hrecord, rfl⟩
    · exact Or.inl heq
    rcases Nat.lt_or_ge a.window.low (m.slot - a.retention) with hbeyond | hle
    · refine Or.inr ⟨h.repeats hreal hrecord hbeyond, rfl, ?_, fun slot hslot => ?_⟩
      · exact highest_raiseLow (isSome_get?_of_record (hrecord ▸ hreal)) (Nat.sub_le _ _)
      · rw [raiseLow, Window.low_raise] at hslot
        exact (Window.get?_raise _ _ _).trans (if_neg (by omega))
    · left
      have hraised : a.window.raise (m.slot - a.retention) = a.window := if_pos hle
      rw [raiseLow, hraised]

/-- An acceptor with retention 1 that voted for slots 1 and 2 took over a vote for slot 5. It declines a
request for a round that it is in and a proposal that it voted for, and stays as it was. When the proposal
for slot 5 is repeated, it gives up the slots below 4. -/
theorem declined_of_taken_over : ∃ (a : Acceptor) (past : Past) (q : Prepare) (m m' : Accept),
    Run (fun _ => True) a past ∧ a.castVotes.map Prod.fst = [1, 2, 5] ∧
    a.prepare q = .ok (a, none) ∧
    m.round.isBottom = false ∧ a.accept m = (a, none) ∧
    m'.round.isBottom = false ∧ a.accept m' = (a.raiseLow 4, none) ∧ Repeats past a m' ∧
    (a.raiseLow 4).castVotes.map Prod.fst = [5] ∧
    (a.raiseLow 4).window.highest = a.window.highest := by
  let e : EpochVector := .zeros 3
  let v := Value.appBatch [65]
  let s : Snapshot := ⟨⟨1, 0⟩, [⟨5, ⟨1, 0⟩, v⟩]⟩
  let q : Prepare := ⟨0, ⟨1, 0⟩, 9⟩
  let m : Accept := ⟨0, ⟨1, 0⟩, 2, v, e⟩
  let m' : Accept := ⟨0, ⟨1, 0⟩, 5, v, e⟩
  have hs := exists_handed (fun _ => True) (.start 2 e 1 .plain) [.accept m'] 0 s (by decide +kernel)
  obtain ⟨a, past, h, hvotes, hround, haccept, haccept', hlater⟩ := exists_run (fun _ => True)
    (List.forall_mem_singleton.mpr hs) (.start 1 e 1 .plain)
    [.accept ⟨0, ⟨1, 0⟩, 1, v, e⟩, .accept m, .takeOver s]
    (fun a _ => a.castVotes.map Prod.fst = [1, 2, 5] ∧ q.round ≤ a.round ∧ a.accept m = (a, none) ∧
      a.accept m' = (a.raiseLow 4, none) ∧
      (a.raiseLow 4).castVotes.map Prod.fst = [5]) (by decide +kernel)
  have hne : a.raiseLow 4 ≠ a := by
    intro heq
    rw [heq, hvotes] at hlater
    cases hlater
  obtain ⟨hrepeats, -, hhighest, -⟩ := (h.declined.2 m' _ rfl haccept').resolve_left hne
  exact ⟨a, past, q, m, m', h, hvotes, if_pos hround, rfl, haccept, rfl, haccept', hrepeats, hlater,
    hhighest⟩

/-- **A declined proposal can cost votes.** An acceptor with retention 1 that voted for slot 1 took over a
vote for slot 5. The proposal of that vote is not answered, and the vote for slot 1 is gone. -/
theorem declined_may_evict : ∃ (a : Acceptor) (past : Past) (m : Accept),
    Run (fun _ => True) a past ∧ m.round.isBottom = false ∧ (a.accept m).2 = none ∧
    a.window.low = 1 ∧ (a.accept m).1.window.low = 4 ∧
    a.voteFor 1 = some ⟨1, ⟨1, 0⟩, .appBatch [65]⟩ ∧ (a.accept m).1.voteFor 1 = none := by
  let e : EpochVector := .zeros 3
  let v := Value.appBatch [65]
  let s : Snapshot := ⟨⟨1, 0⟩, [⟨5, ⟨1, 0⟩, v⟩]⟩
  let m : Accept := ⟨0, ⟨1, 0⟩, 5, v, e⟩
  have hs := exists_handed (fun _ => True) (.start 2 e 1 .plain) [.accept m] 0 s (by decide +kernel)
  obtain ⟨a, past, h, hfacts⟩ := exists_run (fun _ => True)
    (List.forall_mem_singleton.mpr hs) (.start 1 e 1 .plain)
    [.accept ⟨0, ⟨1, 0⟩, 1, v, e⟩, .takeOver s]
    (fun a _ => (a.accept m).2 = none ∧ a.window.low = 1 ∧ (a.accept m).1.window.low = 4 ∧
      a.voteFor 1 = some ⟨1, ⟨1, 0⟩, v⟩ ∧ (a.accept m).1.voteFor 1 = none) (by decide +kernel)
  exact ⟨a, past, m, h, rfl, hfacts⟩

end Acceptor

end ReplicatedLog
