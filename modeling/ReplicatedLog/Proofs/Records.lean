import ReplicatedLog.Proofs.Rounds
import ReplicatedLog.Proofs.Voting
import Mathlib.Data.List.Induction

/-!
# Records of votes

The record that an acceptor has of a slot is the outcome of all votes for the slot that it was ever
offered, those that it cast and those that it took over from others: the first one of the highest
round (`Acceptor.latest`). What a step does to the records is said in these terms, once for all
inputs (`Acceptor.Recording`); only slots below the low mark are exempt, since their records are
gone.
-/

namespace ReplicatedLog

/-! ### The latest vote -/

/-- The later of two votes has the higher of their rounds. -/
@[simp]
theorem Vote.round_join (v : Vote) (r : Report) : (v.join r).round = max v.round r.round := by
  unfold join
  split
  · rename_i h
    exact (max_eq_right h.le).symm
  · rename_i h
    exact (max_eq_left (Round.not_lt.mp h)).symm

theorem Vote.bottom_le (r : Round) : (default : Vote).round ≤ r := by
  rw [Round.le_def]
  simp only [default, Round.bottom]
  omega

namespace Acceptor

/-- The record of a slot, which was `v`, after some votes were offered. -/
def latestFrom (slot : Nat) (v : Vote) (votes : List Report) : Vote :=
  votes.foldl (fun v r => if r.slot = slot then v.join r else v) v

/-- The record of a slot for which nothing was offered but these votes. -/
def latest (votes : List Report) (slot : Nat) : Vote := latestFrom slot default votes

/-- The vote is the first one of the highest round among the votes for its slot. -/
def IsTop (votes : List Report) (r : Report) : Prop :=
  ∃ earlier later, votes = earlier ++ r :: later ∧
    (∀ v ∈ earlier, v.slot = r.slot → v.round < r.round) ∧
    ∀ v ∈ later, v.slot = r.slot → v.round ≤ r.round

section Latest

variable {slot : Nat} {v : Vote} {votes : List Report} {r : Report}

theorem IsTop.mem (h : IsTop votes r) : r ∈ votes := by
  obtain ⟨_, _, rfl, -⟩ := h
  simp

theorem latest_append (votes votes' : List Report) (slot : Nat) :
    latest (votes ++ votes') slot = latestFrom slot (latest votes slot) votes' :=
  List.foldl_append

theorem latest_append_singleton (votes : List Report) (r : Report) (slot : Nat) :
    latest (votes ++ [r]) slot =
      if r.slot = slot then (latest votes slot).join r else latest votes slot :=
  latest_append votes [r] slot

/-- A record never falls back. -/
theorem round_le_latestFrom (slot : Nat) (v : Vote) (votes : List Report) :
    v.round ≤ (latestFrom slot v votes).round := by
  unfold latestFrom
  refine List.foldlRecOn (motive := fun v' : Vote => v.round ≤ v'.round) _ _ le_rfl ?_
  intro v' hv' r _
  split
  · rw [Vote.round_join]
    exact hv'.trans (le_max_left _ _)
  · exact hv'

/-- A record rises no higher than the votes do. -/
theorem round_latestFrom_le {round : Round} (hv : v.round ≤ round)
    (hvotes : ∀ r ∈ votes, r.round ≤ round) : (latestFrom slot v votes).round ≤ round := by
  unfold latestFrom
  refine List.foldlRecOn (motive := fun v' : Vote => v'.round ≤ round) _ _ hv ?_
  intro v' hv' r hr
  split
  · rw [Vote.round_join]
    exact max_le hv' (hvotes r hr)
  · exact hv'

/-- A record has reached the rounds of all votes that were offered for its slot. -/
theorem round_le_latestFrom_of_mem (hr : r ∈ votes) (v : Vote) :
    r.round ≤ (latestFrom r.slot v votes).round := by
  obtain ⟨earlier, later, rfl⟩ := List.append_of_mem hr
  have hreached : r.round ≤ ((latestFrom r.slot v earlier).join r).round := by
    rw [Vote.round_join]
    exact le_max_right _ _
  rw [latestFrom, List.foldl_append, List.foldl_cons, if_pos rfl]
  exact hreached.trans (round_le_latestFrom _ _ later)

/-- No vote for the slot is of a higher round than the latest one. -/
theorem round_le_latest (hr : r ∈ votes) : r.round ≤ (latest votes r.slot).round :=
  round_le_latestFrom_of_mem hr default

/-- A record is what it was, or that of a vote that was offered for its slot. -/
theorem latestFrom_cases (slot : Nat) (v : Vote) (votes : List Report) :
    latestFrom slot v votes = v ∨
      ∃ r ∈ votes, r.slot = slot ∧ latestFrom slot v votes = ⟨r.round, some r.value⟩ := by
  unfold latestFrom
  refine List.foldlRecOn (motive := fun v' : Vote =>
    v' = v ∨ ∃ r ∈ votes, r.slot = slot ∧ v' = ⟨r.round, some r.value⟩) _ _ (Or.inl rfl) ?_
  intro v' hv' r hr
  split
  · rename_i hslot
    unfold Vote.join
    split
    · exact Or.inr ⟨r, hr, hslot, rfl⟩
    · exact hv'
  · exact hv'

/-- The latest vote is the first one of the highest round. -/
theorem isTop_of_latest (h : (latest votes slot).report? slot = some r) : IsTop votes r := by
  induction votes using List.reverseRecOn with
  | nil => cases h
  | append_singleton votes r' ih =>
    rw [latest_append_singleton] at h
    have hslot : r.slot = slot := by
      obtain ⟨_, -, rfl⟩ := Option.map_eq_some_iff.mp h
      rfl
    -- the new vote is the latest one, or the one that was is still the latest
    have hold : (latest votes slot).report? slot = some r →
        (r'.slot = slot → r'.round ≤ r.round) → IsTop (votes ++ [r']) r := by
      intro hr hle
      obtain ⟨earlier, later, rfl, hearlier, hlater⟩ := ih hr
      refine ⟨earlier, later ++ [r'], by simp, hearlier, fun v hv hvslot => ?_⟩
      rcases List.mem_append.mp hv with hv | hv
      · exact hlater v hv hvslot
      · obtain rfl := List.mem_singleton.mp hv
        exact hle (hvslot.trans hslot)
    split at h
    · rename_i hr'
      unfold Vote.join at h
      split at h
      · rename_i hlt
        obtain rfl : r' = r := by
          rw [← hr'] at h
          exact Option.some.inj h
        refine ⟨votes, [], rfl, fun v hv hvslot => ?_, by simp⟩
        have hle := round_le_latest hv
        rw [hvslot, hr'] at hle
        exact hle.trans_lt hlt
      · rename_i hnlt
        refine hold h fun _ => ?_
        obtain ⟨_, -, rfl⟩ := Option.map_eq_some_iff.mp h
        exact Round.not_lt.mp hnlt
    · rename_i hr'
      exact hold h fun hc => absurd hc hr'

/-- A record is blank, or it is that of a vote above the bottom. -/
theorem latest_cases (votes : List Report) (slot : Nat) : latest votes slot = default ∨
    ∃ round value, Round.bottom < round ∧ latest votes slot = ⟨round, some value⟩ := by
  induction votes using List.reverseRecOn with
  | nil => exact Or.inl rfl
  | append_singleton votes r ih =>
    rw [latest_append_singleton]
    unfold Vote.join
    split
    · split
      · rename_i hlt
        exact Or.inr ⟨r.round, r.value, (Vote.bottom_le _).trans_lt hlt, rfl⟩
      · exact ih
    · exact ih

theorem bottom_lt_of_latest (h : (latest votes slot).report? slot = some r) :
    Round.bottom < r.round := by
  rcases latest_cases votes slot with heq | ⟨round, value, hround, heq⟩
  · rw [heq] at h
    cases h
  · rw [heq] at h
    cases h
    exact hround

/-- A record is known by the vote that it reports. -/
theorem latest_eq_of_report? {votes votes' : List Report}
    (h : (latest votes slot).report? slot = (latest votes' slot).report? slot) :
    latest votes slot = latest votes' slot := by
  rcases latest_cases votes slot with heq | ⟨round, value, -, heq⟩ <;>
    rcases latest_cases votes' slot with heq' | ⟨round', value', -, heq'⟩ <;>
    rw [heq, heq'] at h ⊢
  · cases h
  · cases h
  · cases h
    rfl

/-- If a vote for the slot was offered, above the bottom, then there is a latest one. -/
theorem exists_latest (hr : r ∈ votes) (hround : Round.bottom < r.round) :
    ∃ r', (latest votes r.slot).report? r.slot = some r' := by
  rcases latest_cases votes r.slot with heq | ⟨round, value, -, heq⟩
  · have hle := round_le_latest hr
    rw [heq] at hle
    exact absurd hround (not_lt_of_ge hle)
  · exact ⟨⟨r.slot, round, value⟩, by rw [heq]; rfl⟩

end Latest

/-! ### Steps -/

theorem round_of_votesAbove {a : Acceptor} {slot : Nat} {s : Snapshot}
    (h : a.votesAbove slot = .ok s) : s.round = a.round := by
  obtain ⟨_, -, hrest⟩ := Checked.bind_eq_ok_iff.mp h
  obtain ⟨_, -, hret⟩ := Checked.bind_eq_ok_iff.mp hrest
  rw [← Except.ok.inj hret]

/-- The votes among the messages sent. -/
def castIn (out : List Outgoing) : List Learn := select Message.learn? out

/-- The votes of another acceptor that an input brings. -/
def Input.handed : Input → List Report
  | .takeOver s => s.votes
  | _ => []

/-- The votes that an acceptor is offered in a step: those of another one, or the one that it casts. -/
def offered (x : Input) (out : List Outgoing) : List Report :=
  x.handed ++ (castIn out).map fun m => ⟨m.slot, m.round, m.value⟩

@[simp]
theorem offered_takeOver (s : Snapshot) : offered (.takeOver s) [] = s.votes := List.append_nil _

/-- Without another acceptor only what is cast is offered. -/
theorem offered_of_ne {x : Input} (hx : ∀ s, x ≠ .takeOver s) (out : List Outgoing) :
    offered x out = (castIn out).map fun m => ⟨m.slot, m.round, m.value⟩ := by
  cases x with
  | takeOver s => exact absurd rfl (hx s)
  | _ => rfl

/-- What a step does to the records and the marks of an acceptor. -/
structure Recording (a : Acceptor) (x : Input) (a' : Acceptor) (out : List Outgoing) : Prop where
  /-- The low mark does not fall. -/
  low_le : a.window.low ≤ a'.window.low
  /-- The round does not fall. -/
  round_le : a.round ≤ a'.round
  /-- From the low mark on, the records take in the votes that are offered. -/
  record_eq : ∀ slot, a'.window.low ≤ slot →
    a'.record slot = latestFrom slot (a.record slot) (offered x out)
  /-- It casts at most one vote. -/
  once : (castIn out).length ≤ 1
  /-- It votes for a proposal, in a round that it has not passed. -/
  cast : ∀ m ∈ castIn out, (∃ p, x = .accept p ∧ p.round = m.round) ∧
    a.round ≤ m.round ∧ m.round = a'.round
  /-- It votes for a slot that it has not given up, in a round above its record of the slot. -/
  above : ∀ m ∈ castIn out, a'.window.low ≤ m.slot ∧ (a.record m.slot).round < m.round

variable {a a' : Acceptor}

theorem record_of_lt {slot : Nat} (h : slot < a.window.low) : a.record slot = default := by
  rw [record, Window.get?_of_lt_low h]
  rfl

/-- Raising the low mark changes no record from the low mark on. -/
theorem record_raise (a : Acceptor) {below slot : Nat} (h : (a.window.raise below).low ≤ slot) :
    record { a with window := a.window.raise below } slot = a.record slot := by
  rw [Window.low_raise] at h
  rw [record, Window.getD_get?_raise, if_neg (by omega)]
  rfl

/-- Neither does making room for a slot. -/
theorem record_retainedFor (a : Acceptor) {t slot : Nat} (h : (a.retainedFor t).low ≤ slot) :
    record { a with window := (a.retainedFor t).touch t } slot = a.record slot :=
  (Window.getD_get?_touch _ _ _).trans (record_raise a h)

theorem low_le_retainedFor (a : Acceptor) (t : Nat) :
    a.window.low ≤ (a.retainedFor t).low := by
  simp only [retainedFor, Window.low_raise]
  omega

/-- The records after votes were taken over. -/
theorem record_takeOver (a : Acceptor) (s : Snapshot) :
    (a.takeOver s).window.low = a.window.low ∧ ∀ slot, a.window.low ≤ slot →
      (a.takeOver s).record slot = latestFrom slot (a.record slot) s.votes := by
  have hfold : ∀ (votes : List Report) (w : Window Vote),
      (votes.foldl (fun w r => w.modify r.slot (·.join r)) w).low = w.low ∧
        ∀ slot, w.low ≤ slot →
          ((votes.foldl (fun w r => w.modify r.slot (·.join r)) w).get? slot).getD default =
            latestFrom slot ((w.get? slot).getD default) votes := by
    intro votes
    induction votes with
    | nil => exact fun w => ⟨rfl, fun _ _ => rfl⟩
    | cons r votes ih =>
      intro w
      obtain ⟨hlow, hget⟩ := ih (w.modify r.slot (·.join r))
      rw [Window.low_modify] at hlow hget
      refine ⟨hlow, fun slot hslot => ?_⟩
      rw [List.foldl_cons, hget slot hslot, Window.getD_get?_modify]
      unfold latestFrom
      rw [List.foldl_cons]
      congr 1
      by_cases heq : r.slot = slot
      · rw [if_pos ⟨heq.symm, heq ▸ hslot⟩, if_pos heq]
      · rw [if_neg (fun hc => heq hc.1.symm), if_neg heq]
  exact hfold s.votes a.window

/-- A proposal leaves the records alone, or it gets a vote, which is not in the round of the record
that the acceptor has of the slot. -/
theorem record_of_accept {m : Accept} {answer : Option Learn} (h : a.accept m = (a', answer)) :
    a.window.low ≤ a'.window.low ∧
      (answer = none ∧ a'.round = a.round ∧
          (∀ slot, a'.window.low ≤ slot → a'.record slot = a.record slot) ∨
        answer = some ⟨a.id, m.slot, m.round, m.value, a.epochs⟩ ∧ a.round ≤ m.round ∧
          a'.round = m.round ∧ a'.window.low ≤ m.slot ∧ (a.record m.slot).round ≠ m.round ∧
          ∀ slot, a'.window.low ≤ slot → a'.record slot =
            if slot = m.slot then ⟨m.round, some m.value⟩ else a.record slot) := by
  have hlow := low_le_retainedFor a m.slot
  unfold accept at h
  split at h
  · cases h
    exact ⟨le_rfl, Or.inl ⟨rfl, rfl, fun _ _ => rfl⟩⟩
  split at h
  · cases h
    exact ⟨le_rfl, Or.inl ⟨rfl, rfl, fun _ _ => rfl⟩⟩
  rename_i hround
  dsimp only at h
  split at h
  · cases h
    refine ⟨by simpa using hlow, Or.inl ⟨rfl, rfl, fun slot hslot => ?_⟩⟩
    exact record_retainedFor a (by simpa using hslot)
  rename_i vote hvote
  split at h
  · cases h
    refine ⟨by simpa using hlow, Or.inl ⟨rfl, rfl, fun slot hslot => ?_⟩⟩
    exact record_retainedFor a (by simpa using hslot)
  · rename_i hne
    cases h
    have hle := Round.not_lt.mp hround
    have hslot := Window.low_le_of_get? hvote
    rw [Window.low_touch] at hslot
    have hrecord : a.record m.slot = vote := by
      rw [← record_retainedFor a hslot, record]
      exact congrArg (Option.getD · default) hvote
    refine ⟨by simpa using hlow, Or.inr ⟨rfl, hle, if_pos hle, by simpa using hslot,
      hrecord ▸ hne, fun slot hheld => ?_⟩⟩
    simp only [Window.low_modify, Window.low_touch] at hheld
    rw [record, Window.getD_get?_modify, Window.low_touch]
    by_cases heq : slot = m.slot
    · rw [if_pos ⟨heq, hslot⟩, if_pos heq]
    · rw [if_neg (fun hc => heq hc.1), if_neg heq]
      exact record_retainedFor a hheld

/-- A step in which nothing is offered. -/
theorem recording_of_quiet {x : Input} {out : List Outgoing} (hlow : a.window.low ≤ a'.window.low)
    (hround : a.round ≤ a'.round)
    (hrecord : ∀ slot, a'.window.low ≤ slot → a'.record slot = a.record slot)
    (hx : x.handed = []) (hout : castIn out = []) : Recording a x a' out where
  low_le := hlow
  round_le := hround
  record_eq slot hslot := by
    rw [hrecord slot hslot, offered, hx, hout]
    rfl
  once := by simp [hout]
  cast := by simp [hout]
  above := by simp [hout]

/-- **What a step does to the records**, if they were of rounds that the acceptor had reached. -/
theorem recording_of_act {x : Input} {out : List Outgoing}
    (hrounds : ∀ slot, (a.record slot).round ≤ a.round) (h : a.act x = .ok (a', out)) :
    Recording a x a' out := by
  cases x with
  | prepare m =>
    obtain ⟨⟨a₁, answer⟩, hprepare, h⟩ := Checked.bind_eq_ok_iff.mp h
    cases h
    rcases prepare_cases hprepare with ⟨-, rfl, rfl⟩ | ⟨habove, rfl, reports, rfl, -, -⟩
    · exact recording_of_quiet le_rfl le_rfl (fun _ _ => rfl) rfl rfl
    · exact recording_of_quiet (low_le_retainedFor a m.slot) habove.le
        (fun slot hslot => record_raise a hslot) rfl rfl
  | accept m =>
    rcases haccept : a.accept m with ⟨a₁, answer⟩
    simp only [act, haccept] at h
    cases h
    obtain ⟨hlow, ⟨rfl, hround, hrecord⟩ | ⟨rfl, hle, hround, hslot, hne, hrecord⟩⟩ :=
      record_of_accept haccept
    · exact recording_of_quiet hlow hround.ge hrecord rfl rfl
    · have hlt : (a.record m.slot).round < m.round := lt_of_le_of_ne ((hrounds _).trans hle) hne
      have hcast : castIn [.broadcast (.learn ⟨a.id, m.slot, m.round, m.value, a.epochs⟩)] =
          [⟨a.id, m.slot, m.round, m.value, a.epochs⟩] := rfl
      constructor
      · exact hlow
      · exact hround ▸ hle
      · intro slot hslot'
        rw [hrecord slot hslot']
        by_cases heq : slot = m.slot
        · subst heq
          simp [offered, Input.handed, hcast, latestFrom, Vote.join, hlt]
        · simp [offered, Input.handed, hcast, latestFrom, heq, Ne.symm heq]
      · simp [hcast]
      · intro m' hm'
        obtain rfl := List.mem_singleton.mp hm'
        exact ⟨⟨m, rfl, rfl⟩, hle, hround.symm⟩
      · intro m' hm'
        obtain rfl := List.mem_singleton.mp hm'
        exact ⟨hslot, hlt⟩
  | setEpochs epochs =>
    cases h
    exact recording_of_quiet le_rfl le_rfl (fun _ _ => rfl) rfl rfl
  | takeOver s =>
    cases h
    obtain ⟨hlow, hrecord⟩ := record_takeOver a s
    constructor
    · exact hlow.ge
    · exact le_max_left _ _
    · intro slot hslot
      simp [offered, Input.handed, castIn, hrecord slot (hlow ▸ hslot)]
    · simp [castIn]
    · simp [castIn]
    · simp [castIn]
  | raiseLow slot =>
    cases h
    refine recording_of_quiet ?_ le_rfl (fun t ht => record_raise a ht) rfl rfl
    simp only [raiseLow, Window.low_raise]
    omega

end Acceptor

end ReplicatedLog
