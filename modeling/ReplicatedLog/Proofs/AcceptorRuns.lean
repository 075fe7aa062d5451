import ReplicatedLog.Proofs.Records

/-!
# Runs of an acceptor

What an acceptor is to all others, whatever happens to it (`Acceptor.Run`): requests and proposals
come in any order, it gets new views and is told to give up slots, and it takes over the votes of
other acceptors, which came by them in runs of their own.

The past of a run tells the state that it leads to (`Acceptor.Follows`): the record of a slot that
is not given up is the latest of the votes that were offered for it. From this follow

* `Run.votes_once` — it never votes twice for a slot in a round, and nothing that it has reached is
  ever taken back;
* `Run.promise_contract` — a promise reports the latest votes, all of them, and divides the votes
  of the acceptor into those of lower rounds, cast before, and those of no lower ones, cast later.
-/

namespace ReplicatedLog

namespace Acceptor

/-- The steps of a run, in order. -/
abbrev Past := List (Turn Acceptor Input (List Outgoing))

/-- The votes that were offered, whether or not the record of their slot was later. -/
def offers (past : Past) : List Report := past.flatMap fun t => offered t.input t.output

/-- The votes that were cast. -/
def casts (past : Past) : List Learn := past.flatMap fun t => castIn t.output

/-- The runs of an acceptor, with inputs that satisfy `Fine`. What it takes over are the votes of an
acceptor after another such run. -/
inductive Run (Fine : Input → Prop) : Acceptor → Past → Prop
  /-- Nothing has happened. -/
  | start (id : Nat) (epochs : EpochVector) (retention : Nat) (mode : Mode) :
      Run Fine { id, epochs, retention, mode } []
  /-- One more step. -/
  | step {a a' : Acceptor} {x : Input} {out : List Outgoing} {past : Past} (run : Run Fine a past)
      (fine : Fine x) (hx : ∀ s, x ≠ .takeOver s) (act_eq : a.act x = .ok (a', out)) :
      Run Fine a' (past ++ [⟨a, x, a', out⟩])
  /-- It takes over the votes of another acceptor. -/
  | takeOver {a b : Acceptor} {past past' : Past} {slot : Nat} {s : Snapshot}
      (run : Run Fine a past) (other : Run Fine b past') (votes : b.votesAbove slot = .ok s) :
      Run Fine (a.takeOver s) (past ++ [⟨a, .takeOver s, a.takeOver s, []⟩])

/-- From `a` to `a'` nothing was taken back, but for the slots that were given up. -/
structure Advances (a a' : Acceptor) : Prop where
  /-- The round did not fall. -/
  round_le : a.round ≤ a'.round
  /-- The low mark did not fall. -/
  low_le : a.window.low ≤ a'.window.low
  /-- The rounds of the records did not fall. -/
  record_le : ∀ slot, a'.window.low ≤ slot → (a.record slot).round ≤ (a'.record slot).round

theorem Advances.refl (a : Acceptor) : Advances a a := ⟨le_rfl, le_rfl, fun _ _ => le_rfl⟩

theorem Advances.trans {a a' a'' : Acceptor} (h : Advances a a') (h' : Advances a' a'') :
    Advances a a'' where
  round_le := h.round_le.trans h'.round_le
  low_le := h.low_le.trans h'.low_le
  record_le slot hslot :=
    (h.record_le slot (h'.low_le.trans hslot)).trans (h'.record_le slot hslot)

theorem Recording.advances {a a' : Acceptor} {x : Input} {out : List Outgoing}
    (h : Recording a x a' out) : Advances a a' where
  round_le := h.round_le
  low_le := h.low_le
  record_le slot hslot := by
    rw [h.record_eq slot hslot]
    exact round_le_latestFrom _ _ _

/-! ### What the past tells -/

/-- What the past of an acceptor tells about its state. -/
structure Follows (past : Past) (a : Acceptor) : Prop where
  /-- No record is of a higher round than its own. -/
  round_le : ∀ slot, (a.record slot).round ≤ a.round
  /-- From the low mark on, the record of a slot is the latest vote. -/
  record_eq : ∀ slot, a.window.low ≤ slot → a.record slot = latest (offers past) slot
  /-- It voted once for a slot in a round. -/
  nodup : ((casts past).map fun m => (m.slot, m.round)).Nodup
  /-- It voted in rounds that it had reached. -/
  cast_le : ∀ m ∈ casts past, m.round ≤ a.round
  /-- It never fell back. -/
  advances : ∀ t ∈ past, Advances t.before t.after ∧ Advances t.after a

variable {Fine : Input → Prop} {a a' : Acceptor} {past later : Past} {x : Input}
  {out : List Outgoing}

@[simp]
theorem offers_append_singleton (past : Past) (t : Turn Acceptor Input (List Outgoing)) :
    offers (past ++ [t]) = offers past ++ offered t.input t.output := by
  simp [offers]

@[simp]
theorem casts_append_singleton (past : Past) (t : Turn Acceptor Input (List Outgoing)) :
    casts (past ++ [t]) = casts past ++ castIn t.output := by
  simp [casts]

theorem mem_offers_of_mem_casts {m : Learn} (hm : m ∈ casts past) :
    ⟨m.slot, m.round, m.value⟩ ∈ offers past := by
  obtain ⟨t, ht, hm⟩ := List.mem_flatMap.mp hm
  exact List.mem_flatMap.mpr ⟨t, ht, List.mem_append_right _ (List.mem_map_of_mem hm)⟩

/-- The vote that is held for a slot is the latest one. -/
theorem Follows.voteFor_eq (h : Follows past a) {slot : Nat} (hslot : a.window.low ≤ slot) :
    a.voteFor slot = (latest (offers past) slot).report? slot := by
  rw [voteFor_eq_record, h.record_eq slot hslot]

/-- What was cast for a slot that is not given up is no later than its record. -/
theorem Follows.cast_le_record (h : Follows past a) {m : Learn} (hm : m ∈ casts past)
    (hslot : a.window.low ≤ m.slot) : m.round ≤ (a.record m.slot).round := by
  rw [h.record_eq m.slot hslot]
  exact round_le_latest (mem_offers_of_mem_casts hm)

/-- A vote that is held is of a round that the acceptor has reached. -/
theorem Follows.round_le_of_voteFor (h : Follows past a) {slot : Nat} {r : Report}
    (hr : a.voteFor slot = some r) : r.round ≤ a.round := by
  rw [voteFor_eq_record] at hr
  obtain ⟨_, -, rfl⟩ := Option.map_eq_some_iff.mp hr
  exact h.round_le slot

theorem follows_start (hwindow : a.window = {}) : Follows [] a := by
  have hrecord : ∀ slot, a.record slot = default := by
    intro slot
    rw [record, hwindow, Window.get?_empty]
    rfl
  constructor
  · intro slot
    rw [hrecord]
    exact Vote.bottom_le _
  · intro slot _
    exact hrecord slot
  · exact List.nodup_nil
  · intro m hm
    cases hm
  · intro t ht
    cases ht

/-- A step adds to the past what it does to the records. -/
theorem Follows.step (h : Follows past a) (hrec : Recording a x a' out)
    (hrounds : ∀ r ∈ offered x out, r.round ≤ a'.round) :
    Follows (past ++ [⟨a, x, a', out⟩]) a' := by
  constructor
  · intro slot
    rcases Nat.lt_or_ge slot a'.window.low with hlt | hge
    · rw [record_of_lt hlt]
      exact Vote.bottom_le _
    · rw [hrec.record_eq slot hge]
      exact round_latestFrom_le ((h.round_le slot).trans hrec.round_le) hrounds
  · intro slot hslot
    rw [hrec.record_eq slot hslot, h.record_eq slot (hrec.low_le.trans hslot),
      offers_append_singleton, latest_append]
  · rw [casts_append_singleton, List.map_append, List.nodup_append]
    refine ⟨h.nodup, ?_, ?_⟩
    · match hout : castIn out, hrec.once with
      | [], _ => exact List.nodup_nil
      | [m], _ => simp
    · -- the record of the slot has reached all rounds voted in, and the new vote is above it
      rintro _ hold _ hnew rfl
      obtain ⟨m, hm, heq⟩ := List.mem_map.mp hold
      obtain ⟨m', hm', heq'⟩ := List.mem_map.mp hnew
      obtain ⟨hslot, hround⟩ := Prod.mk.inj (heq.trans heq'.symm)
      obtain ⟨hlow, hlt⟩ := hrec.above m' hm'
      have hle := h.cast_le_record hm (by rw [hslot]; exact hrec.low_le.trans hlow)
      rw [hslot, hround] at hle
      exact absurd hlt (not_lt_of_ge hle)
  · intro m hm
    rw [casts_append_singleton] at hm
    rcases List.mem_append.mp hm with hm | hm
    · exact (h.cast_le m hm).trans hrec.round_le
    · exact (hrec.cast m hm).2.2.le
  · intro t ht
    rcases List.mem_append.mp ht with ht | ht
    · exact (h.advances t ht).imp_right (·.trans hrec.advances)
    · obtain rfl := List.mem_singleton.mp ht
      exact ⟨hrec.advances, .refl a'⟩

/-- **The past of a run tells its state.** -/
theorem Run.follows (h : Run Fine a past) : Follows past a := by
  induction h with
  | start => exact follows_start rfl
  | @step a a' x out past _ _ hx act_eq ih =>
    have hrec := recording_of_act ih.round_le act_eq
    refine ih.step hrec fun r hr => ?_
    rw [offered_of_ne hx] at hr
    obtain ⟨m, hm, rfl⟩ := List.mem_map.mp hr
    exact (hrec.cast m hm).2.2.le
  | @takeOver a b past past' slot s _ _ votes ih ih' =>
    have hrec : Recording a (.takeOver s) (a.takeOver s) [] := recording_of_act ih.round_le rfl
    refine ih.step hrec fun r hr => ?_
    rw [offered_takeOver] at hr
    have hround : r.round ≤ b.round := ih'.round_le_of_voteFor (voteFor_of_votesAbove votes hr)
    rw [← round_of_votesAbove votes] at hround
    exact hround.trans (le_max_right _ _)

/-! ### Replays -/

/-- An input that is fine, or brings votes out of `handed`. -/
def Input.Offers (Fine : Input → Prop) (handed : List Snapshot) : Input → Prop
  | .takeOver s => s ∈ handed
  | x => Fine x

instance (Fine : Input → Prop) [DecidablePred Fine] (handed : List Snapshot) (x : Input) :
    Decidable (x.Offers Fine handed) := by
  unfold Input.Offers
  split <;> infer_instance

/-- The state of an acceptor and its past after some inputs, if all of them may come. -/
def replay (Fine : Input → Prop) [DecidablePred Fine] (handed : List Snapshot) :
    Acceptor → Past → List Input → Option (Acceptor × Past)
  | a, past, [] => some (a, past)
  | a, past, x :: xs =>
    if x.Offers Fine handed then
      match a.act x with
      | .ok (a', out) => replay Fine handed a' (past ++ [⟨a, x, a', out⟩]) xs
      | .error _ => none
    else none

theorem run_of_replay [DecidablePred Fine] {handed : List Snapshot} {xs : List Input} {past' : Past}
    (hhanded : ∀ s ∈ handed, ∃ b past slot, Run Fine b past ∧ b.votesAbove slot = .ok s)
    (hrun : Run Fine a past) (h : replay Fine handed a past xs = some (a', past')) :
    Run Fine a' past' := by
  induction xs generalizing a past with
  | nil =>
    cases h
    exact hrun
  | cons x xs ih =>
    unfold replay at h
    split at h
    · rename_i hoffers
      split at h
      · rename_i a₁ out hact
        refine ih ?_ h
        cases x with
        | takeOver s =>
          cases hact
          obtain ⟨b, past', slot, hother, hvotes⟩ := hhanded s hoffers
          exact hrun.takeOver hother hvotes
        | _ => exact hrun.step hoffers (by simp) hact
      · cases h
    · cases h

/-- A run that a replay shows. -/
theorem exists_run (Fine : Input → Prop) [DecidablePred Fine] {handed : List Snapshot}
    (hhanded : ∀ s ∈ handed, ∃ b past slot, Run Fine b past ∧ b.votesAbove slot = .ok s)
    (hrun : Run Fine a past) (xs : List Input) (P : Acceptor → Past → Prop)
    [∀ a past, Decidable (P a past)]
    (h : (replay Fine handed a past xs).any (fun r => decide (P r.1 r.2)) = true) :
    ∃ a past, Run Fine a past ∧ P a past := by
  cases hr : replay Fine handed a past xs with
  | none =>
    rw [hr] at h
    cases h
  | some r =>
    rw [hr] at h
    exact ⟨r.1, r.2, run_of_replay hhanded hrun hr, of_decide_eq_true h⟩

/-- The votes that an acceptor hands over after a run that a replay shows. -/
theorem exists_handed (Fine : Input → Prop) [DecidablePred Fine] (hrun : Run Fine a past)
    (xs : List Input) (slot : Nat) (s : Snapshot) (h : (replay Fine [] a past xs).any
      (fun r => decide ((r.1.votesAbove slot).toOption = some s)) = true) :
    ∃ b past slot, Run Fine b past ∧ b.votesAbove slot = .ok s := by
  obtain ⟨b, past', hb, hvotes⟩ := exists_run Fine (by simp) hrun xs
    (fun b _ => (b.votesAbove slot).toOption = some s) h
  refine ⟨b, past', slot, hb, ?_⟩
  cases hok : b.votesAbove slot with
  | error =>
    rw [hok] at hvotes
    cases hvotes
  | ok s' =>
    rw [hok] at hvotes
    cases hvotes
    rfl

/-! ### Votes -/

/-- **One vote for a slot in a round, and no way back**: no two votes that an acceptor casts are for
the same slot in the same round, also if the slot got a higher vote, was taken over or was given up in
between; from each step on its round, its low mark and the rounds of the records that it still has
never fall; and none of these is above its own round. -/
theorem Run.votes_once (h : Run Fine a past) :
    ((casts past).map fun m => (m.slot, m.round)).Nodup ∧
      (∀ t ∈ past, Advances t.before t.after ∧ Advances t.after a) ∧
        ∀ slot, (a.record slot).round ≤ a.round :=
  ⟨h.follows.nodup, h.follows.advances, h.follows.round_le⟩

/-- A slot gets a vote, a higher one of another acceptor and a vote above that, and is given up; it is
never voted for again in a round in which it had a vote. -/
theorem votes_once_of_taken_over : ∃ a past, Run (fun _ => True) a past ∧
    (casts past).map (fun m => (m.slot, m.round)) = [(1, ⟨1, 0⟩), (1, ⟨3, 0⟩), (4, ⟨3, 0⟩)] ∧
    a.window.low = 3 ∧ ((casts past).map fun m => (m.slot, m.round)).Nodup ∧
      (∀ t ∈ past, Advances t.before t.after ∧ Advances t.after a) ∧
        ∀ slot, (a.record slot).round ≤ a.round := by
  let e : EpochVector := .zeros 3
  let v := Value.appBatch [65]
  let v' := Value.appBatch [66]
  let s : Snapshot := ⟨⟨2, 1⟩, [⟨1, ⟨2, 1⟩, v'⟩]⟩
  have hs := exists_handed (fun _ => True) (.start 2 e 1 .plain)
    [.accept ⟨1, ⟨2, 1⟩, 1, v', e⟩] 0 s (by decide +kernel)
  obtain ⟨a, past, h, hcasts, hlow⟩ := exists_run (fun _ => True)
    (List.forall_mem_singleton.mpr hs) (.start 1 e 1 .plain)
    [.accept ⟨0, ⟨1, 0⟩, 1, v, e⟩, .accept ⟨0, ⟨1, 0⟩, 1, v, e⟩, .takeOver s,
      .accept ⟨1, ⟨2, 1⟩, 1, v', e⟩, .accept ⟨0, ⟨3, 0⟩, 1, v', e⟩, .accept ⟨0, ⟨3, 0⟩, 4, v, e⟩,
      .accept ⟨0, ⟨3, 0⟩, 1, v', e⟩]
    (fun a past => (casts past).map (fun m => (m.slot, m.round)) =
      [(1, ⟨1, 0⟩), (1, ⟨3, 0⟩), (4, ⟨3, 0⟩)] ∧ a.window.low = 3) (by decide +kernel)
  exact ⟨a, past, h, hcasts, hlow, h.votes_once⟩

/-! ### Promises -/

/-- Each step of a run stands between the run before it and the one up to it. -/
theorem Run.split {t : Turn Acceptor Input (List Outgoing)}
    (h : Run Fine a (past ++ t :: later)) :
    Run Fine t.before past ∧ Run Fine t.after (past ++ [t]) ∧
      t.before.act t.input = .ok (t.after, t.output) := by
  generalize hfull : past ++ t :: later = full at h
  induction h generalizing later with
  | start => simp at hfull
  | step run fine hx act_eq ih =>
    rcases last_or_before hfull with ⟨rfl, rfl⟩ | ⟨later', hbefore⟩
    · exact ⟨run, run.step fine hx act_eq, act_eq⟩
    · exact ih hbefore
  | takeOver run other votes ih =>
    rcases last_or_before hfull with ⟨rfl, rfl⟩ | ⟨later', hbefore⟩
    · exact ⟨run, run.takeOver other votes, rfl⟩
    · exact ih hbefore

/-- A proposal is for a real round. -/
def Input.InRealRound : Input → Prop
  | .accept m => m.round.isBottom = false
  | _ => True

instance (x : Input) : Decidable x.InRealRound := by
  unfold Input.InRealRound
  split <;> infer_instance

/-- If all proposals are for real rounds, then so are all votes that are offered. -/
theorem Run.real_of_mem_offers (h : Run Input.InRealRound a past) {r : Report}
    (hr : r ∈ offers past) : r.round.isBottom = false := by
  induction h generalizing r with
  | start => cases hr
  | @step a a' x out past run fine hx act_eq ih =>
    rw [offers_append_singleton, offered_of_ne hx] at hr
    rcases List.mem_append.mp hr with hr | hr
    · exact ih hr
    · obtain ⟨m, hm, rfl⟩ := List.mem_map.mp hr
      obtain ⟨⟨p, rfl, hround⟩, -⟩ := (recording_of_act run.follows.round_le act_eq).cast m hm
      exact hround ▸ fine
  | @takeOver a b past past' slot s _ other votes ih ih' =>
    rw [offers_append_singleton, offered_takeOver] at hr
    rcases List.mem_append.mp hr with hr | hr
    · exact ih hr
    · have hheld := voteFor_of_votesAbove votes hr
      rw [other.follows.voteFor_eq (low_le_of_voteFor hheld)] at hheld
      exact ih' (isTop_of_latest hheld).mem

/-- What a promise reports are the latest votes for the slots from the asked one on that are not
given up, and no slot is left out for which a vote was offered. -/
theorem Run.mem_reports (h : Run Input.InRealRound a past) {first : Nat} {reports : List Report}
    (hreports : ∀ r : Report, r ∈ reports ↔
      first ≤ r.slot ∧ a.voteFor r.slot = some r ∧ r.round.isBottom = false) :
    (∀ slot, slot ∈ reports.map Report.slot ↔
        first ≤ slot ∧ a.window.low ≤ slot ∧ ∃ r ∈ offers past, r.slot = slot) ∧
      ∀ r ∈ reports, IsTop (offers past) r := by
  have htop : ∀ r ∈ reports, IsTop (offers past) r := by
    intro r hr
    obtain ⟨-, hvote, -⟩ := (hreports r).mp hr
    rw [h.follows.voteFor_eq (low_le_of_voteFor hvote)] at hvote
    exact isTop_of_latest hvote
  refine ⟨fun slot => ⟨?_, ?_⟩, htop⟩
  · intro hslot
    obtain ⟨r, hr, rfl⟩ := List.mem_map.mp hslot
    obtain ⟨hfirst, hvote, -⟩ := (hreports r).mp hr
    exact ⟨hfirst, low_le_of_voteFor hvote, r, (htop r hr).mem, rfl⟩
  · rintro ⟨hfirst, hlow, r, hr, rfl⟩
    obtain ⟨r', hr'⟩ := exists_latest hr (Round.bottom_lt_of_isBottom (h.real_of_mem_offers hr))
    have hreal := h.real_of_mem_offers (isTop_of_latest hr').mem
    rw [← h.follows.voteFor_eq hlow] at hr'
    have hslot := slot_of_voteFor hr'
    refine List.mem_map.mpr ⟨r', (hreports r').mpr ⟨?_, ?_, hreal⟩, hslot⟩
    · rw [hslot]
      exact hfirst
    · rw [hslot]
      exact hr'

/-- A promise answers a request for a higher round, which the acceptor is in from then on. -/
theorem promise_of_act {p : Promise} (hact : a.act x = .ok (a', out))
    (hp : Said out (.promise p)) :
    ∃ m, x = .prepare m ∧ p.round = m.round ∧ a.round < p.round ∧ a'.round = p.round ∧
      (p.reports.map Report.slot).Pairwise (· < ·) ∧ ∀ r : Report, r ∈ p.reports ↔
        m.slot ≤ r.slot ∧ a'.voteFor r.slot = some r ∧ r.round.isBottom = false := by
  by_cases hx : ∀ s, x ≠ .takeOver s
  · cases acts_of_act hx hact with
    | quiet => exact absurd hp not_said_nil
    | @promise m _ _ above round_eq _ mem_reports sorted =>
      rw [said_singleton, Outgoing.message, Message.promise.injEq] at hp
      subst hp
      exact ⟨m, rfl, rfl, above, round_eq, sorted, mem_reports⟩
    | vote =>
      rw [said_singleton, Outgoing.message] at hp
      cases hp
  · obtain ⟨s, rfl⟩ : ∃ s, x = .takeOver s := by simpa using hx
    cases hact
    exact absurd hp not_said_nil

/-- **What a promise means**, if all proposals are for real rounds. A promise that is given for a round
and from a slot on lists, in ascending order, exactly the slots from that one on that are not given up
and for which the acceptor cast or took over a vote before, each with the first vote of the highest
round. All votes that it cast before are of lower rounds, and none that it casts later is. -/
theorem Run.promise_contract {t : Turn Acceptor Input (List Outgoing)} {p : Promise}
    (h : Run Input.InRealRound a (past ++ t :: later)) (hp : Said t.output (.promise p)) :
    ∃ m, t.input = .prepare m ∧ p.round = m.round ∧
      (p.reports.map Report.slot).Pairwise (· < ·) ∧
      (∀ slot, slot ∈ p.reports.map Report.slot ↔
        m.slot ≤ slot ∧ t.after.window.low ≤ slot ∧ ∃ r ∈ offers past, r.slot = slot) ∧
      (∀ r ∈ p.reports, IsTop (offers past) r) ∧
      (∀ l ∈ casts past, l.round < p.round) ∧ ∀ l ∈ casts later, p.round ≤ l.round := by
  obtain ⟨hbefore, hafter, hact⟩ := h.split
  obtain ⟨m, hx, hround, habove, hround', hsorted, hreports⟩ := promise_of_act hact hp
  -- nothing is offered in the step itself
  have hoffers : offers (past ++ [t]) = offers past := by
    have hcast : castIn t.output = [] := by
      rw [List.eq_nil_iff_forall_not_mem]
      intro l hl
      obtain ⟨⟨q, hq, -⟩, -⟩ := (recording_of_act hbefore.follows.round_le hact).cast l hl
      rw [hx] at hq
      cases hq
    rw [offers_append_singleton, offered, hx, hcast]
    simp [Input.handed]
  obtain ⟨hslots, htop⟩ := hafter.mem_reports hreports
  rw [hoffers] at hslots htop
  refine ⟨m, hx, hround, hsorted, hslots, htop, ?_, ?_⟩
  · intro l hl
    exact (hbefore.follows.cast_le l hl).trans_lt habove
  · intro l hl
    obtain ⟨u, hu, hlu⟩ := List.mem_flatMap.mp hl
    obtain ⟨us, vs, rfl⟩ := List.append_of_mem hu
    rw [← List.cons_append, ← List.append_assoc] at h
    obtain ⟨hbefore', -, hact'⟩ := h.split
    have hadvances := (hbefore'.follows.advances t (by simp)).2.round_le
    have hcast := ((recording_of_act hbefore'.follows.round_le hact').cast l hlu).2.1
    exact hround' ▸ hadvances.trans hcast

/-- A promise after a vote for slot 2 was replaced by a higher one of another acceptor, and slot 1 was
given up. It reports the higher one, and only a vote in the promised round follows. -/
theorem promise_contract_of_taken_over : ∃ (a : Acceptor) (past later : Past)
    (t : Turn Acceptor Input (List Outgoing)) (p : Promise),
    Run Input.InRealRound a (past ++ t :: later) ∧ Said t.output (.promise p) ∧
    p.reports = [⟨2, ⟨2, 1⟩, .appBatch [66]⟩] ∧ (casts past).map Learn.slot = [1, 2] ∧
    (casts later).map Learn.slot = [3] ∧ (∀ r ∈ p.reports, IsTop (offers past) r) ∧
      (∀ l ∈ casts past, l.round < p.round) ∧ ∀ l ∈ casts later, p.round ≤ l.round := by
  let e : EpochVector := .zeros 3
  let v := Value.appBatch [65]
  let v' := Value.appBatch [66]
  let s : Snapshot := ⟨⟨2, 1⟩, [⟨2, ⟨2, 1⟩, v'⟩]⟩
  let p : Promise := ⟨1, ⟨3, 0⟩, [⟨2, ⟨2, 1⟩, v'⟩], e⟩
  have hs := exists_handed Input.InRealRound (.start 2 e 1 .plain)
    [.accept ⟨1, ⟨2, 1⟩, 2, v', e⟩] 0 s (by decide +kernel)
  obtain ⟨a, past, h, hp, hbefore, hlater⟩ := exists_run Input.InRealRound
    (List.forall_mem_singleton.mpr hs) (.start 1 e 1 .plain)
    [.accept ⟨0, ⟨1, 0⟩, 1, v, e⟩, .accept ⟨0, ⟨1, 0⟩, 2, v, e⟩, .takeOver s, .raiseLow 2,
      .prepare ⟨0, ⟨3, 0⟩, 1⟩, .accept ⟨1, ⟨2, 1⟩, 3, v', e⟩, .accept ⟨0, ⟨3, 0⟩, 3, v, e⟩]
    (fun _ past => past[4]?.any (fun t => decide (Said t.output (.promise p))) = true ∧
      (casts (past.take 4)).map Learn.slot = [1, 2] ∧ (casts (past.drop 5)).map Learn.slot = [3])
    (by decide +kernel)
  obtain ⟨t, ht, hp⟩ := (Option.any_eq_true ..).mp hp
  obtain ⟨hlt, rfl⟩ := List.getElem?_eq_some_iff.mp ht
  rw [← List.take_append_drop 4 past, List.drop_eq_getElem_cons hlt] at h
  have hsaid := of_decide_eq_true hp
  obtain ⟨m, -, -, -, -, htop, hlower, hhigher⟩ := h.promise_contract hsaid
  exact ⟨a, _, _, _, p, h, hsaid, rfl, hbefore, hlater, htop, hlower, hhigher⟩

end Acceptor

end ReplicatedLog
