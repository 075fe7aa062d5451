import ReplicatedLog.Proofs.Learning
import ReplicatedLog.Proofs.Rounds

/-!
# Runs of a learner

What a learner keeps, whatever happens to it: votes of any senders, rounds and values arrive, slots are
asked for, answers come from anywhere, it gets new views, and it waits in vain.

In every step a vote may be counted, or slots become learned (`Changes`); then slots may be delivered
(`exists_tally_of_act`). Nothing that is known about a slot is lost while the slot is held
(`Tally.Grows`), and what was delivered last is held, as far as the retention goes (`Retains`). This is
`retained_log`.
-/

namespace ReplicatedLog

open Function

namespace Tally

/-- From `t` to `t'` nothing that is known about the slot is lost. -/
structure Grows (t t' : Tally) : Prop where
  /-- The round did not fall. -/
  round_le : t.round ≤ t'.round
  /-- A value that was learned stays. -/
  learned_eq : ∀ v, t.learned = some v → t'.learned = some v
  /-- A slot that was delivered stays so. -/
  decided_eq : t.decided = true → t'.decided = true

variable {t t' t'' : Tally}

theorem Grows.refl (t : Tally) : t.Grows t := ⟨le_rfl, fun _ h => h, fun h => h⟩

theorem Grows.trans (h : t.Grows t') (h' : t'.Grows t'') : t.Grows t'' where
  round_le := h.round_le.trans h'.round_le
  learned_eq v hv := h'.learned_eq v (h.learned_eq v hv)
  decided_eq hdecided := h'.decided_eq (h.decided_eq hdecided)

/-- Counting a vote loses nothing, whether or not it settles the slot. -/
theorem grows_of_count {mode : Mode} {own : EpochVector} {m : Learn}
    (h : t.count mode own m = some t') (learned : Option Value) :
    t.Grows { t' with learned } := by
  obtain ⟨hnone, hround, -, -, rfl⟩ := count_eq_some h
  constructor
  · exact hround
  · simp [hnone]
  · exact fun hdecided => hdecided

/-- A slot that was not learned becomes learned. -/
theorem grows_learned (h : t.learned = none) (learned : Option Value) :
    t.Grows { t with learned } := by
  constructor
  · exact le_rfl
  · simp [h]
  · exact fun hdecided => hdecided

theorem grows_mark (t : Tally) (marked : Bool) :
    t.Grows { t with decided := t.decided || marked } := by
  constructor
  · exact le_rfl
  · exact fun _ h => h
  · intro h
    simp [h]

end Tally

namespace Learner

/-- The steps of a run, in order. -/
abbrev Past := List (Turn Learner Input Delivery)

/-- What was delivered, in order. -/
def log (past : Past) : List (Nat × Value) := past.flatMap fun t => t.output.delivered

variable {l l' : Learner} {x : Input} {d : Delivery} {past later : Past}
  {log' : List (Nat × Value)} {retention slot : Nat} {v : Value}

@[simp]
theorem log_append (past later : Past) : log (past ++ later) = log past ++ log later :=
  List.flatMap_append

@[simp]
theorem log_singleton (t : Turn Learner Input Delivery) : log [t] = t.output.delivered := by
  simp [log]

/-! ### Steps -/

/-- A slot about which something is known is held. -/
theorem get?_of_tally_ne (h : l.tally slot ≠ default) :
    l.window.get? slot = some (l.tally slot) := by
  unfold tally at h ⊢
  cases hget : l.window.get? slot with
  | none => simp [hget] at h
  | some t => rfl

theorem tally_of_get? {t : Tally} (h : l.window.get? slot = some t) : l.tally slot = t := by
  rw [tally, h]
  rfl

theorem get?_of_learned (h : (l.tally slot).learned = some v) :
    l.window.get? slot = some (l.tally slot) := by
  apply get?_of_tally_ne
  intro hblank
  rw [hblank] at h
  cases h

theorem get?_of_decided (h : (l.tally slot).decided = true) :
    l.window.get? slot = some (l.tally slot) := by
  apply get?_of_tally_ne
  intro hblank
  rw [hblank] at h
  cases h

theorem low_le_of_learned (h : (l.tally slot).learned = some v) : l.window.low ≤ slot :=
  Window.low_le_of_get? (get?_of_learned h)

theorem low_le_of_act (h : l.act x = .ok (l', d)) : l.window.low ≤ l'.window.low := by
  rw [(low_of_act h).2]
  split
  · exact le_rfl
  · exact le_max_left _ _

/-- What an input can make of the tally of a slot, before slots are delivered. -/
inductive Changes (l : Learner) (x : Input) (slot : Nat) : Tally → Prop
  /-- It stays. -/
  | same : Changes l x slot (l.tally slot)
  /-- A vote is counted that does not settle the slot. -/
  | counts {m : Learn} {t : Tally} (input_eq : x = .learn m) (counts : l.Counts m)
      (slot_eq : m.slot = slot) (count_eq : (l.tally slot).count l.mode l.epochs m = some t)
      (unsettled : l.mode.settles t.votes l.quorum t.disputed = false) : Changes l x slot t
  /-- A vote is counted that settles the slot. -/
  | settles {m : Learn} {t : Tally} (input_eq : x = .learn m) (counts : l.Counts m)
      (slot_eq : m.slot = slot) (count_eq : (l.tally slot).count l.mode l.epochs m = some t)
      (settled : l.mode.settles t.votes l.quorum t.disputed = true) :
      Changes l x slot { t with learned := t.candidate }
  /-- An answer brings the value of the slot, which was not learned. -/
  | takes {m : CatchUpResponse} {value : Value} (input_eq : x = .response m)
      (mem : (slot, value) ∈ m.decided) (learned_eq : (l.tally slot).learned = none) :
      Changes l x slot { l.tally slot with learned := some value }

theorem Changes.grows {t : Tally} (h : l.Changes x slot t) : (l.tally slot).Grows t := by
  cases h with
  | same => exact .refl _
  | counts _ _ _ count_eq => exact Tally.grows_of_count count_eq t.learned
  | settles _ _ _ count_eq => exact Tally.grows_of_count count_eq _
  | takes _ _ learned_eq => exact Tally.grows_learned learned_eq _

/-- It is not changed whether a slot was delivered. -/
theorem Changes.decided_eq {t : Tally} (h : l.Changes x slot t) :
    t.decided = (l.tally slot).decided := by
  cases h with
  | same => rfl
  | counts _ _ _ count_eq =>
    obtain ⟨-, -, -, -, rfl⟩ := Tally.count_eq_some count_eq
    rfl
  | settles _ _ _ count_eq =>
    obtain ⟨-, -, -, -, rfl⟩ := Tally.count_eq_some count_eq
    rfl
  | takes => rfl

/-- What a step does to the slots: tallies change; then slots that are learned are delivered, which marks
those that are not given up. -/
theorem exists_tally_of_act (h : l.act x = .ok (l', d)) : ∃ tally : Nat → Tally,
    (∀ slot, l.Changes x slot (tally slot)) ∧
    (∀ slot value, (slot, value) ∈ d.delivered → (tally slot).learned = some value) ∧
    ∀ slot, l'.window.low ≤ slot → l'.tally slot =
      { tally slot with
        decided := (tally slot).decided || decide (slot ∈ d.delivered.map Prod.fst) } := by
  cases acts_of_act h with
  | quiet _ _ _ _ _ tally_eq =>
    refine ⟨l.tally, fun _ => .same, by simp, fun slot _ => ?_⟩
    simp [tally_eq]
  | answer => exact ⟨l.tally, fun _ => .same, by simp, by simp⟩
  | @count m _ t _ counts _ count_eq unsettled tally_eq =>
    refine ⟨l'.tally, fun slot => ?_, by simp, by simp⟩
    rw [tally_eq, update_apply]
    split
    · rename_i hslot
      rw [← hslot] at count_eq
      exact .counts rfl counts hslot.symm count_eq unsettled
    · exact .same
  | @settle m _ t delivered _ _ counts count_eq settled delivers =>
    refine ⟨_, fun slot => ?_, delivers.learned_of_mem, delivers.tally_eq⟩
    rw [update_apply]
    split
    · rename_i hslot
      rw [← hslot] at count_eq
      exact .settles rfl counts hslot.symm count_eq settled
    · exact .same
  | @take m _ tally delivered _ takes delivers =>
    refine ⟨tally, fun slot => ?_, delivers.learned_of_mem, delivers.tally_eq⟩
    rcases takes slot with heq | ⟨value, hmem, hnone, heq⟩
    · rw [heq]
      exact .same
    · rw [heq]
      exact .takes rfl hmem hnone

/-- A slot that a vote makes learned is settled by it; if the slot is not given up at once, its tally is
the one with that vote. -/
theorem settled_of_learned {m : Learn} (hact : l.act (.learn m) = .ok (l', d))
    (hopen : (l.tally slot).learned = none)
    (hlearned : (l'.tally slot).learned = some v ∨ (slot, v) ∈ d.delivered) :
    slot = m.slot ∧ l.Counts m ∧ ∃ t, (l.tally slot).count l.mode l.epochs m = some t ∧
      l.mode.settles t.votes l.quorum t.disputed = true ∧ t.candidate = some v ∧
      (l'.window.low ≤ slot →
        ∃ decided, l'.tally slot = { t with learned := some v, decided }) := by
  obtain ⟨tally, hchanges, hdelivered, heq⟩ := exists_tally_of_act hact
  have hlearned' : (tally slot).learned = some v := by
    rcases hlearned with hlearned | hmem
    · rwa [heq slot (low_le_of_learned hlearned)] at hlearned
    · exact hdelivered slot v hmem
  have hslot := hchanges slot
  generalize hchanged : tally slot = t at hslot hlearned'
  cases hslot with
  | same => simp [hopen] at hlearned'
  | counts _ _ _ count_eq =>
    obtain ⟨-, -, -, -, rfl⟩ := Tally.count_eq_some count_eq
    simp [hopen] at hlearned'
  | @settles _ t input_eq counts slot_eq count_eq settled =>
    cases input_eq
    have hcandidate : t.candidate = some v := hlearned'
    refine ⟨slot_eq.symm, counts, t, count_eq, settled, hcandidate, fun hslot => ?_⟩
    rw [heq slot hslot, hchanged, hcandidate]
    exact ⟨_, rfl⟩
  | takes input_eq => cases input_eq

/-- As long as a slot is held, nothing that is known about it is lost. -/
theorem grows_of_act (h : l.act x = .ok (l', d)) (hslot : l'.window.low ≤ slot) :
    (l.tally slot).Grows (l'.tally slot) := by
  obtain ⟨tally, hchanges, -, heq⟩ := exists_tally_of_act h
  rw [heq slot hslot]
  exact (hchanges slot).grows.trans (Tally.grows_mark _ _)

/-! ### What is kept -/

/-- The learner has delivered `log'`, and keeps what is within its retention. -/
structure Retains (retention : Nat) (log' : List (Nat × Value)) (l : Learner) : Prop where
  /-- It keeps as many slots. -/
  retention_eq : l.retention = retention
  /-- The slots delivered are the first ones, in order. -/
  slots : log'.map Prod.fst = List.range' 1 log'.length
  /-- The slot after them is next. -/
  next_eq : l.next = 1 + log'.length
  /-- What is behind the retention is given up, and nothing else. -/
  low_eq : l.window.low = max 1 (l.next - retention)
  /-- What was delivered and is not given up is known to be delivered. -/
  held : ∀ slot v, (slot, v) ∈ log' → l.window.low ≤ slot →
    (l.tally slot).learned = some v ∧ (l.tally slot).decided = true

/-- A slot below the next one was delivered. -/
theorem Retains.exists_mem (h : l.Retains retention log') (hpos : 1 ≤ slot) (hslot : slot < l.next) :
    ∃ v, (slot, v) ∈ log' := by
  have hmem : slot ∈ log'.map Prod.fst := by
    rw [h.slots, List.mem_range'_1, ← h.next_eq]
    exact ⟨hpos, hslot⟩
  obtain ⟨⟨_, v⟩, hv, rfl⟩ := List.mem_map.mp hmem
  exact ⟨v, hv⟩

/-- What is given up was delivered. -/
theorem Retains.low_le_next (h : l.Retains retention log') : l.window.low ≤ l.next := by
  have hlow := h.low_eq
  have hnext := h.next_eq
  omega

/-- **Nothing within the retention is lost** in a step. -/
theorem Retains.act (h : l.Retains retention log') (hact : l.act x = .ok (l', d)) :
    l'.Retains retention (log' ++ d.delivered) := by
  obtain ⟨hretention, hlow⟩ := low_of_act hact
  obtain ⟨hnext, hslots⟩ := next_of_act hact
  obtain ⟨tally, hchanges, hlearned, heq⟩ := exists_tally_of_act hact
  constructor
  · exact hretention.trans h.retention_eq
  · rw [List.map_append, h.slots, hslots, h.next_eq, List.length_append, List.range'_append_1]
  · rw [hnext, h.next_eq, List.length_append, Nat.add_assoc]
  · have hbefore := h.low_eq
    rw [hlow, h.retention_eq]
    split
    · rename_i hnone
      rw [hnone, List.length_nil] at hnext
      omega
    · omega
  · intro slot v hmem hslot
    rw [heq slot hslot]
    rcases List.mem_append.mp hmem with hmem | hmem
    · obtain ⟨hv, hdecided⟩ := h.held slot v hmem ((low_le_of_act hact).trans hslot)
      have hgrown := (hchanges slot).grows
      exact ⟨hgrown.learned_eq v hv, by simp [hgrown.decided_eq hdecided]⟩
    · exact ⟨hlearned slot v hmem, by simp [List.mem_map_of_mem (f := Prod.fst) hmem]⟩

/-- The value of a learned slot stays until the slot is given up; by then it was delivered. -/
theorem Retains.learned_of_act (h : l.Retains retention log') (hact : l.act x = .ok (l', d))
    (hv : (l.tally slot).learned = some v) :
    (l'.tally slot).learned = some v ∨ (slot, v) ∈ log' ++ d.delivered := by
  by_cases hslot : l'.window.low ≤ slot
  · exact Or.inl ((grows_of_act hact hslot).learned_eq v hv)
  · right
    have hafter := h.act hact
    have hlow := low_le_of_learned hv
    have hlow_eq := h.low_eq
    have hlow_eq' := hafter.low_eq
    have hpos : 1 ≤ slot := by omega
    have hlt : slot < l'.next := by omega
    obtain ⟨w, hw⟩ := hafter.exists_mem hpos hlt
    -- it was delivered with the value that it was learned with
    obtain ⟨tally, hchanges, hlearned, -⟩ := exists_tally_of_act hact
    have hsame : w = v := by
      apply Option.some.inj
      rcases List.mem_append.mp hw with hmem | hmem
      · rw [← hv]
        exact (h.held slot w hmem hlow).1.symm
      · rw [← hlearned slot w hmem]
        exact (hchanges slot).grows.learned_eq v hv
    exact hsame ▸ hw

/-! ### Runs -/

theorem grows_of_runs (h : Runs act l l' later) (hslot : l'.window.low ≤ slot) :
    (l.tally slot).Grows (l'.tally slot) := by
  induction h with
  | nil => exact .refl _
  | step _ act_eq ih =>
    exact (ih ((low_le_of_act act_eq).trans hslot)).trans (grows_of_act act_eq hslot)

section Runs

variable {s : RoleSettings} {id : Nat} {epochs : EpochVector}

theorem tally_start (s : RoleSettings) (id : Nat) (epochs : EpochVector) (slot : Nat) :
    (Replica.start s id epochs).learner.tally slot = default := by
  rw [tally, show (Replica.start s id epochs).learner.window = {} from rfl, Window.get?_empty]
  rfl

theorem retains_of_runs (h : Runs act (Replica.start s id epochs).learner l past) :
    l.Retains s.retention (log past) := by
  induction h with
  | nil =>
    constructor
    · rfl
    · rfl
    · rfl
    · show 1 = max 1 (1 - s.retention)
      omega
    · simp [log]
  | step _ act_eq ih =>
    rw [log_append, log_singleton]
    exact ih.act act_eq

theorem learned_of_runs (h : Runs act (Replica.start s id epochs).learner l past)
    (h' : Runs act l l' later) (hv : (l.tally slot).learned = some v) :
    (l'.tally slot).learned = some v ∨ (slot, v) ∈ log past ++ log later := by
  induction h' with
  | nil => exact Or.inl hv
  | step run act_eq ih =>
    rw [log_append, log_singleton, ← List.append_assoc]
    rcases ih with ih | ih
    · have hretains := retains_of_runs (h.trans run)
      rw [log_append] at hretains
      exact hretains.learned_of_act act_eq ih
    · exact Or.inr (List.mem_append_left _ ih)

/-- **The log of a learner**, whatever happens to it. It delivers the slots from the first one on, in
order and each once. Of these the last ones, as far as the retention goes, are held and known to be
delivered, with the values that were delivered; those before them are given up. While a slot is held,
the value that it is learned with stays, and so does that it is delivered; a slot that is learned is
given up only when it was delivered with its value. -/
theorem retained_log (h : Runs act (Replica.start s id epochs).learner l past) :
    (log past).map Prod.fst = List.range' 1 l.adu ∧
    (∀ slot, 1 ≤ slot → slot ≤ l.adu → l.next - s.retention ≤ slot →
      ∃ t v, l.window.get? slot = some t ∧ t.decided = true ∧ t.learned = some v ∧
        (slot, v) ∈ log past) ∧
    (∀ slot, slot < l.next - s.retention → l.window.get? slot = none) ∧
    ∀ l' later, Runs act l l' later → ∀ slot t, l.window.get? slot = some t →
      (∀ v, t.learned = some v →
        (∃ t', l'.window.get? slot = some t' ∧ t'.learned = some v) ∨
          l'.window.get? slot = none ∧ (slot, v) ∈ log past ++ log later) ∧
      (t.decided = true →
        (∃ t', l'.window.get? slot = some t' ∧ t'.decided = true) ∨
          l'.window.get? slot = none) := by
  have hretains := retains_of_runs h
  have hnext := hretains.next_eq
  have hlow := hretains.low_eq
  refine ⟨?_, fun slot hpos hadu hslot => ?_, fun slot hslot => ?_, ?_⟩
  · rw [hretains.slots, adu, hnext, Nat.add_sub_cancel_left]
  · have hlt : slot < l.next := by
      unfold adu at hadu
      omega
    obtain ⟨v, hv⟩ := hretains.exists_mem hpos hlt
    obtain ⟨hlearned, hdecided⟩ := hretains.held slot v hv (by omega)
    exact ⟨l.tally slot, v, get?_of_learned hlearned, hdecided, hlearned, hv⟩
  · exact Window.get?_of_lt_low (by omega)
  · intro l' later h' slot t ht
    have hgone : ¬ l'.window.low ≤ slot → l'.window.get? slot = none := fun hnot =>
      Window.get?_of_lt_low (Nat.not_le.mp hnot)
    obtain rfl := tally_of_get? ht
    constructor
    · intro v hv
      by_cases hslot : l'.window.low ≤ slot
      · have hv' := (grows_of_runs h' hslot).learned_eq v hv
        exact Or.inl ⟨_, get?_of_learned hv', hv'⟩
      · have hnone := hgone hslot
        refine Or.inr ⟨hnone, (learned_of_runs h h' hv).resolve_left ?_⟩
        simp [tally, hnone, default]
    · intro hdecided
      by_cases hslot : l'.window.low ≤ slot
      · have hdecided' := (grows_of_runs h' hslot).decided_eq hdecided
        exact Or.inl ⟨_, get?_of_decided hdecided', hdecided'⟩
      · exact Or.inr (hgone hslot)

/-- Slot 2 is learned by votes before an answer brings slots 1 and 3, and with one slot of retention only
slot 3 is held then. Slot 5 is learned before slot 4, is delivered after it, and keeps its value. -/
theorem retained_log_of_answer : ∃ l past l' later,
    Runs act (Replica.start ⟨2, 3, 10, 1, .plain⟩ 0 (.zeros 3)).learner l past ∧
    Runs act l l' later ∧
    log past = [(1, .appBatch [65]), (2, .appBatch [66]), (3, .appBatch [67])] ∧
    log later = [(4, .appBatch [68]), (5, .appBatch [69])] ∧
    (∃ t v, l.window.get? 3 = some t ∧ t.decided = true ∧ t.learned = some v ∧
      (3, v) ∈ log past) ∧ l.window.get? 2 = none ∧
    ((∃ t', l'.window.get? 5 = some t' ∧ t'.learned = some (.appBatch [69])) ∨
      l'.window.get? 5 = none ∧ (5, .appBatch [69]) ∈ log past ++ log later) := by
  let v (n : UInt8) : Value := .appBatch [n]
  let vote (sender slot : Nat) (n : UInt8) : Input :=
    .learn ⟨sender, slot, ⟨1, 1⟩, v n, .zeros 3⟩
  obtain ⟨l, past, h, hnext, hlog, hlearned, hlater⟩ := Runs.exists_of_replay act
    (Replica.start ⟨2, 3, 10, 1, .plain⟩ 0 (.zeros 3)).learner
    [.trust 1, vote 1 2 66, vote 2 2 66, .response ⟨1, [(3, v 67), (1, v 65)]⟩, vote 0 5 69,
      vote 1 5 69]
    (fun l past => l.next = 4 ∧ log past = [(1, v 65), (2, v 66), (3, v 67)] ∧
      (l.tally 5).learned = some (v 69) ∧
      (Runs.replay act l [] [vote 2 5 70, vote 0 4 68, vote 1 4 68]).any
        (fun r => decide (log r.2 = [(4, v 68), (5, v 69)])) = true) (by decide +kernel)
  obtain ⟨l', later, h', hlog'⟩ := Runs.exists_of_replay act l
    [vote 2 5 70, vote 0 4 68, vote 1 4 68]
    (fun _ later => log later = [(4, v 68), (5, v 69)]) hlater
  obtain ⟨-, hheld, hgone, hkept⟩ := retained_log h
  refine ⟨l, past, l', later, h, h', hlog, hlog', ?_, ?_, ?_⟩
  · exact hheld 3 (by decide) (by simp [adu, hnext]) (by simp [hnext])
  · exact hgone 2 (by simp [hnext])
  · exact (hkept l' later h' 5 _ (get?_of_learned hlearned)).1 (v 69) hlearned

end Runs

end Learner

end ReplicatedLog
