import ReplicatedLog.Proofs.FullPipeline
import ReplicatedLog.Proofs.Owning

/-!
# Taking over reported votes

What a proposer makes of the votes that its promises report. A slot for which votes are reported gets
the value of the vote of the highest round, whatever the proposer had for it before; a slot without
reports keeps its value, or becomes a no-op if it had none and votes are reported for a higher slot.

The reports are gone through one after the other, and a report replaces what an earlier one left if its
round is higher. That works out to the highest round because nothing is taken for a report that is left
over from an earlier round (`unseeded_of_runs`), and the order does not matter because any two reports
can change places (`seed_comm`), if two of one round for one slot are for one value. Then the proposer
ends up the same and proposes the same for any order of its promises (`beginProposing_perm`).
-/

namespace ReplicatedLog

/-- The record of a slot after a report for it: the vote is taken over, unless the value comes from a
round at least as high. -/
def Proposal.taking (r : Report) (e : Proposal) : Proposal :=
  if e.takenFrom.isBottom || e.takenFrom < r.round then
    { e with value := some r.value, takenFrom := r.round, own := false }
  else e

/-- Reports of real votes, of which two of one round for one slot are for one value. -/
structure Coherent (reports : List Report) : Prop where
  /-- The rounds are real. -/
  real : ∀ r ∈ reports, r.round.isBottom = false
  /-- In one round there is one value for a slot. -/
  same : ∀ r ∈ reports, ∀ r' ∈ reports, r.slot = r'.slot → r.round = r'.round → r.value = r'.value

/-- Two reports for a slot can be taken in any order. -/
theorem Proposal.taking_comm {r r' : Report} (hr : r.round.isBottom = false)
    (hr' : r'.round.isBottom = false) (hsame : r.round = r'.round → r.value = r'.value)
    (e : Proposal) : taking r' (taking r e) = taking r (taking r' e) := by
  unfold taking
  rcases lt_trichotomy r.round r'.round with hlt | heq | hgt
  · by_cases hbottom : e.takenFrom.isBottom = true
    · simp [hbottom, hr, hr', hlt, hlt.asymm]
    · by_cases hbelow : e.takenFrom < r.round
      · simp [hbottom, hbelow, hr', hlt, hlt.asymm, hbelow.trans hlt]
      · by_cases hbelow' : e.takenFrom < r'.round <;>
          simp [hbottom, hbelow, hbelow', hr', hlt.asymm]
  · simp [heq, hsame heq]
  · by_cases hbottom : e.takenFrom.isBottom = true
    · simp [hbottom, hr, hr', hgt, hgt.asymm]
    · by_cases hbelow : e.takenFrom < r'.round
      · simp [hbottom, hbelow, hr, hgt, hgt.asymm, hbelow.trans hgt]
      · by_cases hbelow' : e.takenFrom < r.round <;>
          simp [hbottom, hbelow, hbelow', hr, hgt.asymm]

namespace Proposer

variable {p p' : Proposer} {x : Input} {o : Output} {out : List Outgoing} {past : Past}
  {reports reports' : List Report} {ms ms' : List Promise}

/-! ### The order of reports -/

theorem seed_eq (adu : Nat) (w : Window Proposal) (r : Report) :
    seed adu w r = if r.slot ≤ adu then w else w.modify r.slot (Proposal.taking r) := rfl

/-- Two reports can change places. -/
theorem seed_comm {r r' : Report} (h : Coherent reports) (hr : r ∈ reports) (hr' : r' ∈ reports)
    (adu : Nat) (w : Window Proposal) :
    seed adu (seed adu w r) r' = seed adu (seed adu w r') r := by
  rw [seed_eq, seed_eq, seed_eq, seed_eq]
  by_cases hadu : r.slot ≤ adu
  · rw [if_pos hadu, if_pos hadu]
  by_cases hadu' : r'.slot ≤ adu
  · rw [if_pos hadu', if_pos hadu']
  rw [if_neg hadu, if_neg hadu, if_neg hadu', if_neg hadu']
  by_cases hslot : r.slot = r'.slot
  · rw [hslot, Window.modify_modify, Window.modify_modify]
    congr 1
    funext e
    exact Proposal.taking_comm (h.real r hr) (h.real r' hr') (h.same r hr r' hr' hslot) e
  · exact Window.modify_comm w hslot _ _

theorem foldl_seed_perm (h : Coherent reports) (hperm : reports.Perm reports') (adu : Nat)
    (w : Window Proposal) : reports'.foldl (seed adu) w = reports.foldl (seed adu) w :=
  (hperm.foldl_eq' (fun _ hr _ hr' w => seed_comm h hr hr' adu w) w).symm

theorem foldl_max_perm (hperm : reports.Perm reports') (last : Nat) :
    reports'.foldl (fun last r => max last r.slot) last =
      reports.foldl (fun last r => max last r.slot) last :=
  (hperm.foldl_eq' (fun r _ r' _ last => max_right_comm last r.slot r'.slot) last).symm

/-- Filling the pipeline does not look at the promises. -/
theorem fill_promises (p : Proposer) (ms : List Promise) :
    fill { p with promises := ms } =
      (fill p).map fun r => ({ r.1 with promises := ms }, r.2) := by
  unfold fill
  rw [show isLeader { p with promises := ms } = p.isLeader from rfl]
  dsimp only
  split
  · cases Word.fit (p.adu + p.alpha) with
    | error e => rfl
    | ok last =>
      simp only [bind, Except.bind, pure, Except.pure]
      split <;> rfl
  · rfl

theorem seeded_perm (h : Coherent (ms.flatMap Promise.reports)) (hperm : ms.Perm ms') :
    seeded { p with promises := ms' } = seeded { p with promises := ms } :=
  foldl_seed_perm h (hperm.flatMap_right Promise.reports) p.adu p.window

theorem lastReported_perm (hperm : ms.Perm ms') :
    lastReported { p with promises := ms' } = lastReported { p with promises := ms } :=
  foldl_max_perm (hperm.flatMap_right Promise.reports) p.adu

/-- With its promises in another order, a proposer gets ready in the same way. -/
theorem begun_perm (h : Coherent (ms.flatMap Promise.reports)) (hperm : ms.Perm ms')
    (ownBefore : List (Nat × Value)) :
    begun { p with promises := ms' } ownBefore =
      { begun { p with promises := ms } ownBefore with promises := ms' } := by
  unfold begun displaced
  rw [seeded_perm h hperm, lastReported_perm hperm]

/-- **The order of promises does not matter**: with any other order the proposer ends up the same, apart
from the promises themselves, and sends the same. -/
theorem beginProposing_perm (h : Coherent (ms.flatMap Promise.reports)) (hperm : ms.Perm ms') :
    beginProposing { p with promises := ms' } =
      (beginProposing { p with promises := ms }).map fun r => ({ r.1 with promises := ms' }, r.2) := by
  have hholes : holesFound { p with promises := ms' } = holesFound { p with promises := ms } := by
    unfold holesFound
    rw [seeded_perm h hperm, lastReported_perm hperm]
  have hown : ownValues { p with promises := ms' } = ownValues { p with promises := ms } := rfl
  rw [beginProposing_eq, beginProposing_eq, hholes, hown]
  cases ownValues { p with promises := ms } with
  | error e => rfl
  | ok own =>
    cases Word.fitCount (holesFound { p with promises := ms }) with
    | error e => rfl
    | ok _ =>
      show (begun { p with promises := ms' } own).fill = _
      rw [begun_perm h hperm, fill_promises]
      rfl

/-! ### Nothing is left over from earlier rounds -/

/-- While a proposer collects promises, no value counts as taken from a report. -/
theorem unseeded_of_act (hlow : p.window.low = p.adu + 1)
    (hunseeded : p.phase = .one → ∀ t, takenIn p.window t = none) (hact : p.act x = .ok (p', o))
    (hone : p'.phase = .one) : ∀ t, takenIn p'.window t = none := by
  cases acts_of_act hlow hact with
  | quiet same =>
    rcases same.phase_cases with ⟨hidle, -⟩ | ⟨heq, -⟩
    · rw [hidle] at hone
      cases hone
    · rw [same.window_eq]
      exact hunseeded (heq ▸ hone)
  | ask _ asks => exact asks.takenIn_eq
  | gather => exact hunseeded hone
  | @fill _ q _ _ _ readies fills =>
    rcases fill_cases fills with ⟨-, rfl, -⟩ | ⟨-, htwo, room, f, -, -, rfl, -⟩
    · cases readies with
      | begins => cases hone
      | submits => exact hunseeded hone
      | advances adu decided =>
        intro t
        have hnone : takenIn p.window t = none := hunseeded hone t
        rw [advanced, takenIn_raise, hnone, ite_self]
    · have hone' : q.phase = .one := hone
      rw [htwo] at hone'
      cases hone'
  | resend phase_eq =>
    have hone' : p.phase = .one := hone
    rw [phase_eq] at hone'
    cases hone'

theorem unseeded_of_runs {s : RoleSettings} {id : Nat} {epochs : EpochVector}
    (h : Runs act (Replica.start s id epochs).proposer p past) (hone : p.phase = .one) :
    ∀ t, takenIn p.window t = none := by
  induction h with
  | nil => cases hone
  | step run act_eq ih =>
    exact unseeded_of_act (follows_of_runs run).consistent.low_eq ih act_eq hone

/-! ### What the slots get -/

/-- A slot has the value that it had, or one that waited in the queue. -/
theorem valueIn_fillFrom_cases (room slot : Nat) (w : Window Proposal) (queue : List Value)
    {t : Nat} {v : Value} (h : valueIn (fillFrom room slot w queue).window t = some v) :
    valueIn w t = some v ∨ v ∈ queue := by
  fun_induction fillFrom room slot w queue with
  | case1 => exact Or.inl h
  | case2 room slot w window queue _ => exact Or.inl ((valueIn_touch w slot t).symm.trans h)
  | case3 room slot w window value takenFrom own resends queue hget window' rest ih =>
    refine (ih h).imp_left fun hbefore => ?_
    rwa [valueIn_modify_of_value_eq (by exact fun _ => rfl), valueIn_touch] at hbefore
  | case4 room slot w window takenFrom own resends value queue hget window' rest ih =>
    rcases ih h with hbefore | hmem
    · rw [valueIn_modify, valueIn_touch] at hbefore
      split at hbefore
      · obtain rfl := Option.some.inj hbefore
        exact Or.inr List.mem_cons_self
      · exact Or.inl hbefore
    · exact Or.inr (List.mem_cons_of_mem value hmem)
  | case5 room slot w window takenFrom own resends _ =>
    exact Or.inl ((valueIn_touch w slot t).symm.trans h)

/-- Filling the pipeline changes no value; slots without a value may get one that waits. -/
theorem valueAt_fill_cases (h : p.fill = .ok (p', out)) (t : Nat) :
    p'.valueAt t = p.valueAt t ∨ p.valueAt t = none ∧ ∃ v ∈ p.queue, p'.valueAt t = some v := by
  rcases fill_cases h with ⟨-, rfl, -⟩ | ⟨-, -, room, f, rfl, hf, rfl, -⟩
  · exact Or.inl rfl
  rcases hf.value_cases t with hsame | hnone
  · exact Or.inl hsame
  · cases hnow : valueIn (fillFrom room p.nextSlot p.window p.queue).window t with
    | none => exact Or.inl (hnow.trans hnone.symm)
    | some v =>
      have hqueue := (valueIn_fillFrom_cases room p.nextSlot p.window p.queue hnow).resolve_left
        (by simp [hnone])
      exact Or.inr ⟨hnone, v, hqueue, hnow⟩

/-- What a slot has before the pipeline is filled, it has afterwards. -/
theorem valueAt_of_fill {t : Nat} {v : Value} (h : p.fill = .ok (p', out))
    (hvalue : p.valueAt t = some v) : p'.valueAt t = some v := by
  rcases valueAt_fill_cases h t with hsame | ⟨hnone, -⟩
  · exact hsame.trans hvalue
  · rw [hvalue] at hnone
    cases hnone

/-- What waits when a proposer begins waited before, or was its own value for some slot. -/
theorem mem_queue_begun {ownBefore : List (Nat × Value)} {v : Value}
    (hlow : p.window.low = p.adu + 1) (hown : p.ownValues = .ok ownBefore)
    (hv : v ∈ (p.begun ownBefore).queue) : v ∈ p.queue ∨ ∃ t, p.ownAt t = some v := by
  refine (List.mem_append.mp hv).symm.imp_right fun hdisplaced => ?_
  obtain ⟨⟨t, u⟩, hmem, hu⟩ := List.mem_filterMap.mp hdisplaced
  dsimp only at hu
  split at hu
  · cases hu
  · cases hu
    exact ⟨t, (mem_ownValues_iff hlow hown).mp hmem⟩

/-- There are reports for higher slots exactly up to the last slot with a report. -/
theorem lt_lastReported_iff {t : Nat} (ht : p.adu ≤ t) :
    t < p.lastReported ↔ ∃ r ∈ p.reports, t < r.slot := by
  constructor
  · intro hlt
    rcases lastReported_cases p with heq | ⟨r, hr, heq⟩
    · omega
    · exact ⟨r, hr, heq ▸ hlt⟩
  · rintro ⟨r, hr, hlt⟩
    exact hlt.trans_le (slot_le_lastReported hr)

/-- **Seeding**, and then filling the pipeline: what each slot gets if nothing counts as taken from a
report before. -/
theorem valueAt_of_beginProposing (hlow : p.window.low = p.adu + 1)
    (hunseeded : ∀ t, takenIn p.window t = none)
    (hreal : ∀ r ∈ p.reports, r.round.isBottom = false) (h : p.beginProposing = .ok (p', out))
    {t : Nat} (ht : p.adu < t) :
    ((∃ r ∈ p.reports, r.slot = t) → ∃ r ∈ p.reports, r.slot = t ∧
      (∀ r' ∈ p.reports, r'.slot = t → r'.round ≤ r.round) ∧ p'.valueAt t = some r.value) ∧
    ((∀ r ∈ p.reports, r.slot ≠ t) → (∃ r ∈ p.reports, t < r.slot) →
      p'.valueAt t = some ((p.valueAt t).getD .noop)) ∧
    ((∀ r ∈ p.reports, r.slot < t) → p'.valueAt t = p.valueAt t ∨
      p.valueAt t = none ∧ ∃ v, (v ∈ p.queue ∨ ∃ u, p.ownAt u = some v) ∧
        p'.valueAt t = some v) := by
  obtain ⟨ownBefore, hown, hfill⟩ := beginProposing_cases h
  have hbegun := valueAt_begun_eq ownBefore hlow ht
  refine ⟨fun ⟨r, hr, hslot⟩ => ?_, fun hnone hbelow => ?_, fun hbeyond => ?_⟩
  · rcases valueAt_begun ownBefore hlow (hunseeded t) hreal ht with
      ⟨hnone, -⟩ | ⟨top, htop, hslot', hvalue, hmax⟩
    · exact absurd hslot (hnone r hr)
    · exact ⟨top, htop, hslot', hmax, valueAt_of_fill hfill hvalue⟩
  · rw [if_pos ((lt_lastReported_iff ht.le).mpr hbelow).le, valueIn_seeded_of_ne hnone] at hbegun
    exact valueAt_of_fill hfill hbegun
  · have hlast : p.lastReported < t := by
      rcases lastReported_cases p with hadu | ⟨r, hr, hslot⟩
      · rwa [hadu]
      · exact hslot ▸ hbeyond r hr
    rw [if_neg hlast.not_ge, valueIn_seeded_of_ne fun r hr => (hbeyond r hr).ne] at hbegun
    rcases valueAt_fill_cases hfill t with hsame | ⟨hnone, v, hv, hnow⟩
    · exact Or.inl (hsame.trans hbegun)
    · exact Or.inr ⟨hbegun.symm.trans hnone, v, mem_queue_begun hlow hown hv, hnow⟩

section Runs

variable {s : RoleSettings} {id : Nat} {epochs : EpochVector}

/-- **The highest reported vote wins**, whatever happened to a proposer before. Let it begin to propose
out of phase one, with any promises whose reports are coherent. Beyond the decided slots,

* a slot with reports gets the value of a report of the highest round for it;
* a slot without reports below one with a report keeps its value, or becomes a no-op if it had none;
* a slot above all reports keeps its value; if it had none, it may get one as the pipeline is filled,
  which waited in the queue or lost its slot to a report.

With the promises in any other order, the proposer ends up the same and sends the same. -/
theorem seeds_highest_votes (h : Runs act (Replica.start s id epochs).proposer p past)
    (hone : p.phase = .one) (hcoherent : Coherent (ms.flatMap Promise.reports)) :
    (∀ p' out, beginProposing { p with promises := ms } = .ok (p', out) → ∀ t, p.adu < t →
      let reports := ms.flatMap Promise.reports
      ((∃ r ∈ reports, r.slot = t) → ∃ r ∈ reports, r.slot = t ∧
        (∀ r' ∈ reports, r'.slot = t → r'.round ≤ r.round) ∧ p'.valueAt t = some r.value) ∧
      ((∀ r ∈ reports, r.slot ≠ t) → (∃ r ∈ reports, t < r.slot) →
        p'.valueAt t = some ((p.valueAt t).getD .noop)) ∧
      ((∀ r ∈ reports, r.slot < t) → p'.valueAt t = p.valueAt t ∨
        p.valueAt t = none ∧ ∃ v, (v ∈ p.queue ∨ ∃ u, p.ownAt u = some v) ∧
          p'.valueAt t = some v)) ∧
    ∀ ms', ms.Perm ms' → beginProposing { p with promises := ms' } =
      (beginProposing { p with promises := ms }).map fun r => ({ r.1 with promises := ms' }, r.2) := by
  have hlow := (follows_of_runs h).consistent.low_eq
  have hunseeded := unseeded_of_runs h hone
  refine ⟨fun p' out hbegin t ht => ?_, fun ms' hperm => beginProposing_perm hcoherent hperm⟩
  exact valueAt_of_beginProposing (p := { p with promises := ms }) hlow hunseeded hcoherent.real
    hbegin ht

/-- A proposer took the value of slot 3 from a vote of round 5, and leads again in round 6. Now votes of
lower rounds are reported, first those of the lowest; for slot 2 one of round 3, and the proposer's own
value moves on to slot 6. With the promises in the other order it does the same. -/
theorem seeds_highest_votes_of_third_round : ∃ p past p' out ms,
    Runs act (Replica.start ⟨2, 5, 10, 8, .plain⟩ 0 (.zeros 3)).proposer p past ∧
    (p.phase = .one ∧ p.adu = 1 ∧ p.ownAt 2 = some (.appBatch [66]) ∧
      p.valueAt 3 = some (.appBatch [88])) ∧
    ms = [⟨1, ⟨6, 0⟩, [⟨3, ⟨2, 1⟩, .appBatch [89]⟩, ⟨2, ⟨3, 2⟩, .appBatch [87]⟩], .zeros 3⟩,
      ⟨2, ⟨6, 0⟩, [⟨3, ⟨3, 2⟩, .appBatch [90]⟩, ⟨2, ⟨1, 0⟩, .appBatch [66]⟩,
        ⟨5, ⟨4, 1⟩, .appBatch [86]⟩], .zeros 3⟩] ∧
    Coherent (ms.flatMap Promise.reports) ∧
    beginProposing { p with promises := ms } = .ok (p', out) ∧
    (p'.valueAt 2 = some (.appBatch [87]) ∧ p'.valueAt 3 = some (.appBatch [90]) ∧
      p'.valueAt 4 = some .noop ∧ p'.valueAt 6 = some (.appBatch [66])) ∧
    p'.valueAt 4 = some ((p.valueAt 4).getD .noop) ∧
    beginProposing { p with promises := ms.reverse } = .ok ({ p' with promises := ms.reverse }, out) := by
  let e : EpochVector := .zeros 3
  let v (n : UInt8) : Value := .appBatch [n]
  let ms : List Promise :=
    [⟨1, ⟨6, 0⟩, [⟨3, ⟨2, 1⟩, v 89⟩, ⟨2, ⟨3, 2⟩, v 87⟩], e⟩,
      ⟨2, ⟨6, 0⟩, [⟨3, ⟨3, 2⟩, v 90⟩, ⟨2, ⟨1, 0⟩, v 66⟩, ⟨5, ⟨4, 1⟩, v 86⟩], e⟩]
  obtain ⟨p, past, h, hstate, hbegins⟩ := Runs.exists_of_replay act
    (Replica.start ⟨2, 5, 10, 8, .plain⟩ 0 e).proposer
    [.trust 0, .submit (v 65), .submit (v 66), .promise ⟨1, ⟨1, 0⟩, [], e⟩,
      .promise ⟨2, ⟨1, 0⟩, [], e⟩, .noteDelivered 1 [(1, v 65)], .trust 1, .trust 0,
      .promise ⟨1, ⟨2, 0⟩, [⟨3, ⟨5, 1⟩, v 88⟩], e⟩, .promise ⟨2, ⟨2, 0⟩, [], e⟩, .trust 1, .trust 0]
    (fun p _ => (p.phase = .one ∧ p.adu = 1 ∧ p.ownAt 2 = some (v 66) ∧ p.valueAt 3 = some (v 88)) ∧
      (beginProposing { p with promises := ms }).toOption.any (fun r =>
        decide (r.1.valueAt 2 = some (v 87) ∧ r.1.valueAt 3 = some (v 90) ∧
          r.1.valueAt 4 = some .noop ∧ r.1.valueAt 6 = some (v 66))) = true) (by decide +kernel)
  have hcoherent : Coherent (ms.flatMap Promise.reports) := ⟨by decide, by decide⟩
  cases hbegin : beginProposing { p with promises := ms } with
  | error fault =>
    rw [hbegin] at hbegins
    cases hbegins
  | ok r =>
    obtain ⟨p', out⟩ := r
    rw [hbegin] at hbegins
    obtain ⟨hseeded, hperm⟩ := seeds_highest_votes h hstate.1 hcoherent
    refine ⟨p, past, p', out, ms, h, hstate, rfl, hcoherent, hbegin, of_decide_eq_true hbegins, ?_, ?_⟩
    · exact (hseeded p' out hbegin 4 (by rw [hstate.2.1]; decide)).2.1 (by decide) (by decide)
    · rw [hperm ms.reverse ms.reverse_perm.symm, hbegin]
      rfl

end Runs

end Proposer

end ReplicatedLog
