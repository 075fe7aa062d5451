import Mathlib.Data.List.Basic
import ReplicatedLog.Proofs.Proposing

/-!
# Steps of a proposer as a whole

What one step of a proposer can be, said once for all its inputs (`Proposer.Acts`):

* nothing that matters changes, except that it may stop leading;
* it asks for promises, for a higher round of its own;
* it keeps one more promise;
* it gets ready to propose and then fills the pipeline — because it has its promises
  (`Proposer.begun`), because a value was submitted, or because slots were delivered
  (`Proposer.advanced`);
* it sends again all that is unanswered, and counts that (`Proposer.Recounted`).

Every message of a proposer is said in its own name (`Proposer.author_of_act`).
-/

namespace ReplicatedLog

namespace Proposer

/-! ### Beginning to propose -/

/-- The reports of all promises, in order. -/
def reports (p : Proposer) : List Report := p.promises.flatMap Promise.reports

/-- The highest slot of a report, or `adu` if that is higher. -/
def lastReported (p : Proposer) : Nat := p.reports.foldl (fun last r => max last r.slot) p.adu

/-- The window with the reported votes taken over. -/
def seeded (p : Proposer) : Window Proposal := p.reports.foldl (seed p.adu) p.window

/-- Marks as own again the values that kept their slots. -/
def restore (window : Window Proposal) (ownBefore : List (Nat × Value)) : Window Proposal :=
  ownBefore.foldl
    (fun window (slot, value) => window.modify slot fun e =>
      if e.value == some value then { e with own := true } else e)
    window

/-- The own values that lost their slots to reported votes. -/
def displaced (p : Proposer) (ownBefore : List (Nat × Value)) : List Value :=
  ownBefore.filterMap fun (slot, value) => if holds p.seeded slot value then none else some value

/-- A proposer that has its promises, before it fills the pipeline. -/
def begun (p : Proposer) (ownBefore : List (Nat × Value)) : Proposer :=
  { p with
    window := plug (restore p.seeded ownBefore) p.adu p.lastReported
    queue := p.displaced ownBefore ++ p.queue
    phase := .two
    nextSlot := p.adu + 1
    checkedAdu := p.adu }

/-- The number of slots that are filled with no-ops: up to the last one with a report, those without a
value. -/
def holesFound (p : Proposer) : Nat := holes p.seeded p.adu p.lastReported

/-- The own values are those that the proposer has for slots above `adu`. -/
theorem valueAt_of_mem_ownValues {p : Proposer} {ownBefore : List (Nat × Value)} {slot : Nat}
    {value : Value} (h : p.ownValues = .ok ownBefore) (hmem : (slot, value) ∈ ownBefore) :
    p.adu < slot ∧ p.valueAt slot = some value := by
  obtain ⟨first, hfirst, hrest⟩ := Checked.bind_eq_ok_iff.mp h
  obtain ⟨held, hheld, hown⟩ := Checked.bind_eq_ok_iff.mp hrest
  obtain rfl := Except.ok.inj hown
  obtain ⟨-, rfl⟩ := Word.fit_eq_ok_iff.mp hfirst
  obtain ⟨⟨t, e⟩, hin, hmap⟩ := List.mem_filterMap.mp hmem
  dsimp only at hmap
  split at hmap
  · obtain ⟨v, hv, heq⟩ := Option.map_eq_some_iff.mp hmap
    cases heq
    obtain ⟨hle, -, hget⟩ := (Window.mem_of_range hheld).mp hin
    refine ⟨hle, ?_⟩
    rw [valueAt, valueIn, hget, Option.bind_some, hv]
  · cases hmap

theorem valueIn_restore (w : Window Proposal) (ownBefore : List (Nat × Value)) (t : Nat) :
    valueIn (restore w ownBefore) t = valueIn w t := by
  unfold restore
  refine List.foldlRecOn (motive := fun w' => valueIn w' t = valueIn w t) _ _ rfl ?_
  intro w' hw' own _
  refine (valueIn_modify_of_value_eq ?_ t).trans hw'
  intro e
  split <;> rfl

theorem low_restore (w : Window Proposal) (ownBefore : List (Nat × Value)) :
    (restore w ownBefore).low = w.low := by
  unfold restore
  refine List.foldlRecOn (motive := fun w' : Window Proposal => w'.low = w.low) _ _ rfl ?_
  intro w' hw' own _
  rw [Window.low_modify, hw']

/-- Marking values as own neither fills nor leaves holes. -/
theorem holes_restore (w : Window Proposal) (ownBefore : List (Nat × Value)) (adu last : Nat) :
    holes (restore w ownBefore) adu last = holes w adu last := by
  unfold holes
  rw [low_restore]
  refine List.countP_congr fun slot _ => ?_
  have hvalue := valueIn_restore w ownBefore slot
  unfold valueIn at hvalue
  rw [hvalue]

/-- A proposer that has its promises counts its holes, and then fills the pipeline. -/
theorem beginProposing_eq (p : Proposer) : p.beginProposing =
    p.ownValues >>= fun ownBefore => Word.fitCount p.holesFound >>= fun _ =>
      (p.begun ownBefore).fill := by
  have hshape : p.beginProposing = p.ownValues >>= fun ownBefore =>
      Word.fitCount (holes (restore p.seeded ownBefore) p.adu p.lastReported) >>= fun _ =>
        (p.begun ownBefore).fill := rfl
  simp only [hshape, holes_restore]
  rfl

theorem beginProposing_cases {p p' : Proposer} {out : List Outgoing}
    (h : p.beginProposing = .ok (p', out)) :
    ∃ ownBefore, p.ownValues = .ok ownBefore ∧ (p.begun ownBefore).fill = .ok (p', out) := by
  rw [beginProposing_eq] at h
  obtain ⟨ownBefore, hown, hrest⟩ := Checked.bind_eq_ok_iff.mp h
  obtain ⟨_, -, hfill⟩ := Checked.bind_eq_ok_iff.mp hrest
  exact ⟨ownBefore, hown, hfill⟩

theorem low_plug (w : Window Proposal) (adu last : Nat) : (plug w adu last).low = w.low := by
  unfold plug
  refine List.foldlRecOn (motive := fun w' : Window Proposal => w'.low = w.low) _ _ rfl ?_
  intro w' hw' slot _
  rw [Window.low_modify, hw']

theorem low_seeded (p : Proposer) : p.seeded.low = p.window.low := by
  unfold seeded
  refine List.foldlRecOn (motive := fun w' : Window Proposal => w'.low = p.window.low) _ _ rfl ?_
  intro w' hw' r _
  rw [low_seed, hw']

theorem low_begun (p : Proposer) (ownBefore : List (Nat × Value)) :
    (p.begun ownBefore).window.low = p.window.low := by
  rw [begun, low_plug, low_restore, low_seeded]

theorem slot_le_lastReported {p : Proposer} {r : Report} (h : r ∈ p.reports) :
    r.slot ≤ p.lastReported := by
  have hfold : ∀ (reports : List Report) (last : Nat),
      last ≤ reports.foldl (fun last r => max last r.slot) last ∧
        ∀ r ∈ reports, r.slot ≤ reports.foldl (fun last r => max last r.slot) last := by
    intro reports
    induction reports with
    | nil => intro last; simp
    | cons r₀ reports ih =>
      intro last
      obtain ⟨hle, hall⟩ := ih (max last r₀.slot)
      refine ⟨by simp only [List.foldl_cons]; omega, fun r hr => ?_⟩
      rcases List.mem_cons.mp hr with rfl | hr
      · simp only [List.foldl_cons]
        omega
      · exact hall r hr
  exact (hfold p.reports p.adu).2 r h

/-- Up to which slot there are reports is told by `adu` or by some report. -/
theorem lastReported_cases (p : Proposer) :
    p.lastReported = p.adu ∨ ∃ r ∈ p.reports, r.slot = p.lastReported := by
  unfold lastReported
  refine List.foldlRecOn (motive := fun last => last = p.adu ∨ ∃ r ∈ p.reports, r.slot = last)
    _ _ (Or.inl rfl) ?_
  intro last hlast r hr
  rcases Nat.le_total last r.slot with hle | hle
  · exact Or.inr ⟨r, hr, by omega⟩
  · rw [Nat.max_eq_left hle]
    exact hlast

/-- A slot for which there is no report keeps its value while the votes are taken over. -/
theorem valueIn_seeded_of_ne {p : Proposer} {t : Nat} (h : ∀ r ∈ p.reports, r.slot ≠ t) :
    valueIn p.seeded t = p.valueAt t := by
  unfold seeded
  refine List.foldlRecOn (motive := fun w => valueIn w t = p.valueAt t) _ _ rfl ?_
  intro w hw r hr
  exact (seed_of_ne (h r hr)).1.trans hw

/-- Up to the last slot with a report every slot gets a value: the one that was taken over or that it
had, else a no-op. -/
theorem valueAt_begun_eq {p : Proposer} (ownBefore : List (Nat × Value)) {t : Nat}
    (hlow : p.window.low = p.adu + 1) (ht : p.adu < t) :
    (p.begun ownBefore).valueAt t =
      if t ≤ p.lastReported then some ((valueIn p.seeded t).getD .noop)
      else valueIn p.seeded t := by
  unfold begun valueAt
  rw [valueIn_plug, valueIn_restore, low_restore, low_seeded]
  congr 1
  apply propext
  omega

/-- **Seeding**: a slot for which there are reports gets the value of one of the highest round; any
other slot keeps its value, or becomes a no-op if it had none. -/
theorem valueAt_begun {p : Proposer} (ownBefore : List (Nat × Value)) {t : Nat}
    (hlow : p.window.low = p.adu + 1) (hblank : takenIn p.window t = none)
    (hreports : ∀ r ∈ p.reports, r.round.isBottom = false) (ht : p.adu < t) :
    ((∀ r ∈ p.reports, r.slot ≠ t) ∧
        ((p.begun ownBefore).valueAt t = p.valueAt t ∨
          p.valueAt t = none ∧ t ≤ p.lastReported ∧
            (p.begun ownBefore).valueAt t = some .noop)) ∨
      ∃ r ∈ p.reports, r.slot = t ∧ (p.begun ownBefore).valueAt t = some r.value ∧
        ∀ r' ∈ p.reports, r'.slot = t → r'.round ≤ r.round := by
  have hplug := valueAt_begun_eq ownBefore hlow ht
  obtain ⟨-, hseed⟩ := seed_cases p.reports ht (by omega) hblank hreports
  rcases hseed with ⟨hnone, -, -⟩ | ⟨r, hr, hslot, hvalue, -, hmax⟩
  · refine Or.inl ⟨hnone, ?_⟩
    rw [hplug, valueIn_seeded_of_ne hnone]
    split
    · cases hv : p.valueAt t with
      | none => exact Or.inr ⟨rfl, by assumption, rfl⟩
      | some v => exact Or.inl rfl
    · exact Or.inl rfl
  · refine Or.inr ⟨r, hr, hslot, ?_, hmax⟩
    have hvalue' : valueIn p.seeded t = some r.value := hvalue
    have hle := slot_le_lastReported hr
    rw [hplug, if_pos (hslot ▸ hle), hvalue']
    rfl

/-! ### Hearing of deliveries -/

/-- The own values that lost their slots, up to `adu`, to what was delivered there. -/
def lost (p : Proposer) (adu : Nat) (decided : List (Nat × Value)) : List Value :=
  decided.filterMap fun (slot, value) =>
    if p.adu < slot && slot ≤ adu then p.lostTo slot value else none

/-- A proposer that heard of deliveries up to `adu`, before it fills the pipeline. -/
def advanced (p : Proposer) (adu : Nat) (decided : List (Nat × Value)) : Proposer :=
  { p with
    queue := p.lost adu decided ++ p.queue
    adu
    window := p.window.raise (adu + 1)
    nextSlot := if p.nextSlot ≤ adu then adu + 1 else p.nextSlot }

theorem noteDelivered_cases {p p' : Proposer} {adu : Nat} {decided : List (Nat × Value)}
    {out : List Outgoing} (h : p.noteDelivered adu decided = .ok (p', out)) :
    (adu ≤ p.adu ∧ p' = p ∧ out = []) ∨
      (p.adu < adu ∧ adu + 1 < Word.size ∧ (p.advanced adu decided).fill = .ok (p', out)) := by
  unfold noteDelivered at h
  split at h
  · rename_i hadu
    cases h
    exact Or.inl ⟨hadu, rfl, rfl⟩
  · rename_i hadu
    obtain ⟨below, hbelow, hfill⟩ := Checked.bind_eq_ok_iff.mp h
    obtain ⟨hfits, rfl⟩ := Word.fit_eq_ok_iff.mp hbelow
    exact Or.inr ⟨Nat.not_le.mp hadu, hfits, hfill⟩

/-- The next slot to propose for does not fall, and is not among the delivered ones. -/
theorem nextSlot_advanced (p : Proposer) (adu : Nat) (decided : List (Nat × Value)) :
    p.nextSlot ≤ (p.advanced adu decided).nextSlot ∧ adu < (p.advanced adu decided).nextSlot := by
  unfold advanced
  dsimp only
  split <;> omega

/-- The values of the slots that were not delivered stay. -/
theorem valueAt_advanced (p : Proposer) {adu t : Nat} (decided : List (Nat × Value)) (ht : adu < t) :
    (p.advanced adu decided).valueAt t = p.valueAt t := by
  rw [valueAt, advanced, valueIn_raise, if_neg (by omega), valueAt]

/-! ### Promises -/

/-- Hearing of rounds raises the counter that was heard of, and nothing else. -/
theorem hear_reports (p : Proposer) (reports : List Report) :
    ∃ topCounter, reports.foldl (fun p r => p.hear r.round) p = { p with topCounter } := by
  refine List.foldlRecOn (motive := fun p' : Proposer => ∃ topCounter, p' = { p with topCounter })
    _ _ ⟨p.topCounter, rfl⟩ ?_
  rintro _ ⟨topCounter, rfl⟩ r _
  exact ⟨_, rfl⟩

theorem mem_recordPromise {ms : List Promise} {m m' : Promise} (h : m' ∈ recordPromise ms m) :
    m' = m ∨ m' ∈ ms := by
  induction ms with
  | nil => exact Or.inl (List.mem_singleton.mp h)
  | cons m₀ ms ih =>
    unfold recordPromise at h
    split at h
    · rcases List.mem_cons.mp h with h | h
      · exact Or.inl h
      · exact Or.inr (List.mem_cons_of_mem _ h)
    · rcases List.mem_cons.mp h with rfl | h
      · exact Or.inr List.mem_cons_self
      · exact (ih h).imp_right (List.mem_cons_of_mem _)

/-- Of each sender there is at most one promise. -/
theorem nodup_recordPromise {ms : List Promise} (m : Promise)
    (h : (ms.map Promise.sender).Nodup) :
    ((recordPromise ms m).map Promise.sender).Nodup := by
  induction ms with
  | nil => simp [recordPromise]
  | cons m₀ ms ih =>
    rw [List.map_cons, List.nodup_cons] at h
    unfold recordPromise
    split
    · rename_i hsender
      rw [List.map_cons, List.nodup_cons, ← hsender]
      exact h
    · rename_i hsender
      rw [List.map_cons, List.nodup_cons]
      refine ⟨fun hmem => ?_, ih h.2⟩
      obtain ⟨m', hm', heq⟩ := List.mem_map.mp hmem
      rcases mem_recordPromise hm' with rfl | hm'
      · exact hsender heq.symm
      · exact h.1 (heq ▸ List.mem_map_of_mem hm')

/-- A promise counts for a leader in phase one if it is for the current round. It is kept; if the
promises then are a quorum, the proposer begins to propose. -/
theorem promise_cases {p p' : Proposer} {m : Promise} {out : List Outgoing}
    (h : p.promise m = .ok (p', out)) :
    ∃ topCounter,
      (¬ (p.isLeader = true ∧ p.phase = .one ∧ m.round = p.round) ∧
        p' = { p with topCounter } ∧ out = []) ∨
      (p.phase = .one ∧ m.round = p.round ∧
        let gathered := { p with topCounter, promises := recordPromise p.promises m }
        ((p.mode.quorumOfPromises gathered.promises p.quorum = none ∧ p' = gathered ∧ out = []) ∨
          (p.mode.quorumOfPromises gathered.promises p.quorum ≠ none ∧
            gathered.beginProposing = .ok (p', out)))) := by
  obtain ⟨topCounter, hheard⟩ := hear_reports (p.hear m.round) m.reports
  refine ⟨topCounter, ?_⟩
  unfold promise at h
  rw [hheard] at h
  dsimp only [hear] at h
  split at h
  · rename_i hignored
    cases h
    refine Or.inl ⟨?_, rfl, rfl⟩
    rintro ⟨hleads, hphase, hround⟩
    simp only [hphase, hround, bne_self_eq_false, Bool.or_false, Bool.not_eq_true'] at hignored
    exact absurd (hleads.symm.trans hignored) (by simp)
  · rename_i hcounts
    simp only [Bool.or_eq_true, Bool.not_eq_true', bne_iff_ne, not_or, not_not] at hcounts
    refine Or.inr ⟨hcounts.1.2, hcounts.2, ?_⟩
    split at h
    · rename_i hnone
      cases h
      exact Or.inl ⟨hnone, rfl, rfl⟩
    · rename_i positions hquorum
      exact Or.inr ⟨Option.ne_none_iff_exists'.mpr ⟨positions, hquorum⟩, h⟩

/-! ### Sending again -/

/-- The slots proposed for that are not decided, with their values. -/
def unanswered (p : Proposer) : List (Nat × Value) :=
  (List.range' (p.adu + 1) (p.nextSlot - (p.adu + 1))).filterMap fun slot =>
    (p.valueAt slot).map fun value => (slot, value)

theorem mem_unanswered {p : Proposer} {slot : Nat} {value : Value} :
    (slot, value) ∈ p.unanswered ↔
      p.adu < slot ∧ slot < p.nextSlot ∧ p.valueAt slot = some value := by
  simp only [unanswered, List.mem_filterMap, List.mem_range'_1, Option.map_eq_some_iff,
    Prod.mk.injEq]
  constructor
  · rintro ⟨t, ht, v, hv, rfl, rfl⟩
    exact ⟨by omega, by omega, hv⟩
  · rintro ⟨hadu, hnext, hvalue⟩
    exact ⟨slot, by omega, value, hvalue, rfl, rfl⟩

/-- All that is unanswered, proposed again. -/
def resent (p : Proposer) : List Outgoing :=
  p.unanswered.map fun (slot, value) => p.proposal slot value

theorem of_mem_resent {p : Proposer} {o : Outgoing} (h : o ∈ p.resent) : ∃ slot value,
    p.adu < slot ∧ slot < p.nextSlot ∧ p.valueAt slot = some value ∧ o = p.proposal slot value := by
  obtain ⟨⟨slot, value⟩, hmem, rfl⟩ := List.mem_map.mp h
  obtain ⟨hadu, hnext, hvalue⟩ := mem_unanswered.mp hmem
  exact ⟨slot, value, hadu, hnext, hvalue, rfl⟩

/-- The slots that are not decided are listed once. -/
theorem nodup_unanswered (p : Proposer) : (p.unanswered.map Prod.fst).Nodup := by
  rw [List.Nodup, List.pairwise_map]
  refine List.Pairwise.filterMap _ ?_ List.pairwise_lt_range'
  intro s t hlt a ha b hb
  obtain ⟨_, -, rfl⟩ := Option.map_eq_some_iff.mp ha
  obtain ⟨_, -, rfl⟩ := Option.map_eq_some_iff.mp hb
  exact Nat.ne_of_lt hlt

/-- The window is that of the proposer, in which all that is unanswered counts as sent once more. -/
structure Recounted (p : Proposer) (window : Window Proposal) : Prop where
  /-- The window has not moved. -/
  low_eq : window.low = p.window.low
  /-- It differs in the counts only. -/
  record_eq : ∀ t, (window.get? t).getD default =
    let e := (p.window.get? t).getD default
    if t ∈ p.unanswered.map Prod.fst then { e with resends := e.resends + 1 } else e

theorem Recounted.valueIn_eq {p : Proposer} {window : Window Proposal} (h : p.Recounted window)
    (t : Nat) : valueIn window t = p.valueAt t := by
  rw [← value_getD, h.record_eq, valueAt, ← value_getD]
  dsimp only
  split <;> rfl

theorem Recounted.ownIn_eq {p : Proposer} {window : Window Proposal} (h : p.Recounted window)
    (t : Nat) : ownIn window t = p.ownAt t := by
  rw [← own?_getD, h.record_eq, ownAt, ← own?_getD]
  dsimp only
  split <;> rfl

theorem Recounted.resendsIn_eq {p : Proposer} {window : Window Proposal} (h : p.Recounted window)
    (t : Nat) : resendsIn window t =
      if t ∈ p.unanswered.map Prod.fst then resendsIn p.window t + 1 else resendsIn p.window t := by
  rw [resendsIn, h.record_eq]
  dsimp only
  split <;> rfl

/-- Setting the counts of some slots changes the counts of these. -/
theorem getD_get?_setResends (w : Window Proposal) (slots : List (Nat × Value)) (count : Nat → Nat)
    (t : Nat) :
    let w' := slots.foldl (fun window (slot, _) =>
      window.modify slot fun e => { e with resends := count slot }) w
    w'.low = w.low ∧ (w'.get? t).getD default =
      let e := (w.get? t).getD default
      if t ∈ slots.map Prod.fst ∧ w.low ≤ t then { e with resends := count t } else e := by
  induction slots generalizing w with
  | nil => simp
  | cons s slots ih =>
    obtain ⟨hlow, hrecord⟩ := ih (w.modify s.1 fun e => { e with resends := count s.1 })
    rw [Window.low_modify] at hlow hrecord
    rw [Window.getD_get?_modify] at hrecord
    refine ⟨hlow, hrecord.trans ?_⟩
    by_cases ht : t = s.1
    · subst ht
      by_cases hlow : w.low ≤ s.1 <;> simp [hlow]
    · simp only [ht, false_and, if_false, List.map_cons, List.mem_cons, false_or]

/-- Holding slots shows in no record. -/
theorem getD_get?_foldl_touch (w : Window Proposal) (slots : List Nat) :
    (slots.foldl Window.touch w).low = w.low ∧
      ∀ t, ((slots.foldl Window.touch w).get? t).getD default = (w.get? t).getD default := by
  refine List.foldlRecOn (motive := fun w' : Window Proposal => w'.low = w.low ∧
    ∀ t, (w'.get? t).getD default = (w.get? t).getD default) _ _ ⟨rfl, fun _ => rfl⟩ ?_
  intro w' hw' slot _
  exact ⟨(Window.low_touch w' slot).trans hw'.1, fun t =>
    (Window.getD_get?_touch w' slot t).trans (hw'.2 t)⟩

/-- What is to be sent again is what is unanswered, and counts once more. -/
theorem filterMap_eq_unanswered (p : Proposer) {window : Window Proposal}
    (hrecord : ∀ t, (window.get? t).getD default = (p.window.get? t).getD default) :
    ((List.range' (p.adu + 1) (p.nextSlot - (p.adu + 1))).filterMap fun slot => do
        let e ← window.get? slot
        let value ← e.value
        return (slot, value, e.resends + 1)) =
      p.unanswered.map fun (slot, value) => (slot, value, resendsIn p.window slot + 1) := by
  rw [unanswered, List.map_filterMap]
  refine List.filterMap_congr fun slot _ => ?_
  refine (Window.bind_get? rfl window slot).trans ?_
  rw [hrecord, valueAt, ← value_getD]
  cases ((p.window.get? slot).getD default).value <;> rfl

/-- Counting all that is unanswered once more. -/
theorem recounted_foldl (p : Proposer) {window : Window Proposal}
    (hlow : window.low = p.window.low)
    (hrecord : ∀ t, (window.get? t).getD default = (p.window.get? t).getD default) :
    p.Recounted (p.unanswered.foldl (fun window (slot, _) =>
      window.modify slot fun e => { e with resends := resendsIn p.window slot + 1 }) window) := by
  have hset := getD_get?_setResends window p.unanswered fun slot => resendsIn p.window slot + 1
  refine ⟨(hset 0).1.trans hlow, fun t => (hset t).2.trans ?_⟩
  rw [hlow, hrecord]
  refine if_congr (and_iff_left_of_imp fun ht => ?_) rfl rfl
  -- a slot below the low mark has no value
  obtain ⟨⟨_, value⟩, hmem, rfl⟩ := List.mem_map.mp ht
  by_contra hbelow
  have hvalue := (mem_unanswered.mp hmem).2.2
  rw [valueAt, valueIn, Window.get?_of_lt_low (Nat.not_le.mp hbelow)] at hvalue
  cases hvalue

/-- What a check for progress does. -/
inductive Checks (p : Proposer) : Proposer → List Outgoing → Prop
  /-- It does nothing, since the proposer does not propose. -/
  | rests (idle : ¬ (p.isLeader = true ∧ p.phase = .two)) : Checks p p []
  /-- There was progress, and it takes note of that. -/
  | notes (behind : p.checkedAdu < p.adu) : Checks p { p with checkedAdu := p.adu } []
  /-- A proposal was sent too often: it asks for promises again. -/
  | renews {window : Window Proposal} {p' : Proposer} {out : List Outgoing}
      (phase_eq : p.phase = .two) (low_eq : window.low = p.window.low)
      (record_eq : ∀ t, (window.get? t).getD default = (p.window.get? t).getD default)
      (asks : askPromises { p with window } = .ok (p', out)) : Checks p p' out
  /-- All that is unanswered is sent again. -/
  | resends {window : Window Proposal} (phase_eq : p.phase = .two) (stuck : p.adu ≤ p.checkedAdu)
      (recounted : p.Recounted window)
      (below : ∀ slot ∈ p.unanswered.map Prod.fst, resendsIn p.window slot < p.resendThreshold) :
      Checks p { p with window } p.resent

/-- A check for progress rests, asks for promises again, or sends again what was proposed. -/
theorem checks_of_checkProgress {p p' : Proposer} {out : List Outgoing}
    (h : p.checkProgress = .ok (p', out)) : p.Checks p' out := by
  unfold checkProgress at h
  split at h
  · rename_i hidle
    cases h
    refine .rests fun ⟨hleads, htwo⟩ => ?_
    simp [hleads, htwo] at hidle
  rename_i hleads
  simp only [Bool.or_eq_true, bne_iff_ne, not_or, not_not] at hleads
  split at h
  · rename_i hbehind
    cases h
    exact .notes hbehind
  rename_i hstuck
  obtain ⟨first, hfirst, hrest⟩ := Checked.bind_eq_ok_iff.mp h
  obtain ⟨-, rfl⟩ := Word.fit_eq_ok_iff.mp hfirst
  obtain ⟨_, -, hsent⟩ := Checked.bind_eq_ok_iff.mp hrest
  obtain ⟨hlow, hrecord⟩ := getD_get?_foldl_touch p.window
    (List.range' (p.adu + 1) (p.nextSlot - (p.adu + 1)))
  rw [filterMap_eq_unanswered p hrecord] at hsent
  split at hsent
  · exact .renews hleads.2 hlow hrecord hsent
  · rename_i hbelow
    obtain ⟨rfl, rfl⟩ := Prod.mk.inj (Except.ok.inj hsent)
    rw [List.foldl_map, List.map_map]
    refine .resends hleads.2 (Nat.not_lt.mp hstuck) (recounted_foldl p hlow hrecord) ?_
    intro slot hslot
    obtain ⟨⟨_, value⟩, hmem, rfl⟩ := List.mem_map.mp hslot
    by_contra hover
    refine hbelow (List.any_eq_true.mpr ⟨_, List.mem_map_of_mem hmem, ?_⟩)
    exact decide_eq_true (Nat.lt_succ_of_le (Nat.not_lt.mp hover))

/-! ### Proposing -/

/-- A message proposes what the proposer has for a slot, which is neither decided nor still to come. -/
theorem said_of_proposals {p : Proposer} {out : List Outgoing} {m : Message}
    (hout : ∀ o ∈ out, ∃ slot value, p.adu < slot ∧ slot < p.nextSlot ∧
      p.valueAt slot = some value ∧ o = p.proposal slot value) (hm : Said out m) :
    ∃ slot value, p.adu < slot ∧ slot < p.nextSlot ∧ p.valueAt slot = some value ∧
      m = .accept ⟨p.id, p.round, slot, value, p.epochs⟩ := by
  obtain ⟨o, ho, rfl⟩ := hm
  obtain ⟨slot, value, hadu, hnext, hvalue, rfl⟩ := hout o ho
  exact ⟨slot, value, hadu, hnext, hvalue, rfl⟩

/-- What is proposed when the pipeline is filled is what the proposer has afterwards. -/
theorem proposals_of_fill {p p' : Proposer} {out : List Outgoing} (hadu : p.adu < p.nextSlot)
    (h : p.fill = .ok (p', out)) : ∀ o ∈ out, ∃ slot value, p'.adu < slot ∧ slot < p'.nextSlot ∧
      p'.valueAt slot = some value ∧ o = p'.proposal slot value := by
  rcases fill_cases h with ⟨-, rfl, rfl⟩ | ⟨-, -, room, f, -, hf, rfl, rfl⟩
  · intro o ho
    cases ho
  · intro o ho
    obtain ⟨⟨slot, value⟩, hmem, rfl⟩ := List.mem_map.mp ho
    obtain ⟨hle, hlt⟩ := hf.mem_slots hmem
    exact ⟨slot, value, hadu.trans_le hle, hlt, (hf.value_of_sent slot value hmem).1, rfl⟩

/-! ### Steps -/

/-- Nothing that matters for what is proposed differs, except that the second may have stopped. -/
structure Same (p p' : Proposer) : Prop where
  /-- It is the same proposer. -/
  id_eq : p'.id = p.id
  /-- It needs as many promises. -/
  quorum_eq : p'.quorum = p.quorum
  /-- It is in the same round. -/
  round_eq : p'.round = p.round
  /-- It has the same values. -/
  window_eq : p'.window = p.window
  /-- The same slots are decided. -/
  adu_eq : p'.adu = p.adu
  /-- It proposes for the same slot next. -/
  nextSlot_eq : p'.nextSlot = p.nextSlot
  /-- The same values wait. -/
  queue_eq : p'.queue = p.queue
  /-- It has stopped, or is doing what it did. -/
  phase_cases : p'.phase = .idle ∧ p'.promises = [] ∨
    p'.phase = p.phase ∧ p'.promises = p.promises

/-- The proposer asks for promises, for a higher round of its own; it has the same values, but none
of them was taken from a vote in this round. -/
structure Asks (p p' : Proposer) (out : List Outgoing) : Prop where
  /-- It is the same proposer. -/
  id_eq : p'.id = p.id
  /-- It needs as many promises. -/
  quorum_eq : p'.quorum = p.quorum
  /-- The round is higher. -/
  above : p.round < p'.round
  /-- It is its own. -/
  owner_eq : p'.round.owner = p.id
  /-- It is a real round. -/
  not_bottom : p'.round.isBottom = false
  /-- Its counter fits in a word. -/
  counter_lt : p'.round.counter < Word.size
  /-- It collects promises. -/
  phase_eq : p'.phase = .one
  /-- It has none yet. -/
  promises_eq : p'.promises = []
  /-- The window has not moved. -/
  low_eq : p'.window.low = p.window.low
  /-- It has the same values. -/
  valueAt_eq : ∀ t, p'.valueAt t = p.valueAt t
  /-- The same of them are its own. -/
  ownAt_eq : ∀ t, p'.ownAt t = p.ownAt t
  /-- None of them was taken from a vote. -/
  takenIn_eq : ∀ t, takenIn p'.window t = none
  /-- The same slots are decided. -/
  adu_eq : p'.adu = p.adu
  /-- It proposes for the same slot next. -/
  nextSlot_eq : p'.nextSlot = p.nextSlot
  /-- The same values wait. -/
  queue_eq : p'.queue = p.queue
  /-- It asks everybody. -/
  out_eq : out = [.broadcast (.prepare ⟨p.id, p'.round, p.adu⟩)]

/-- In which state `q` a proposer fills the pipeline after an input, and which value it took. -/
inductive Readies (p : Proposer) : Input → Proposer → Option Value → Prop
  /-- It has its promises. -/
  | begins {m : Promise} (topCounter : Nat) (ownBefore : List (Nat × Value))
      (phase_eq : p.phase = .one) (round_eq : m.round = p.round)
      (enough : p.mode.quorumOfPromises (recordPromise p.promises m) p.quorum ≠ none)
      (own : ownValues { p with topCounter, promises := recordPromise p.promises m } =
        .ok ownBefore) :
      Readies p (.promise m)
        (begun { p with topCounter, promises := recordPromise p.promises m } ownBefore) none
  /-- A value was submitted. -/
  | submits (value : Value) (leads : p.isLeader = true) :
      Readies p (.submit value) { p with queue := p.queue ++ [value] } (some value)
  /-- Slots were delivered. -/
  | advances (adu : Nat) (decided : List (Nat × Value)) (above : p.adu < adu)
      (fits : adu + 1 < Word.size) :
      Readies p (.noteDelivered adu decided) (p.advanced adu decided) none

/-- What a step of a proposer can be. -/
inductive Acts (p : Proposer) : Input → Proposer → Output → Prop
  /-- Nothing that matters changes. -/
  | quiet {x : Input} {p' : Proposer} (same : Same p p') : Acts p x p' {}
  /-- It asks for promises: it was told to lead, or is doing so already. -/
  | ask {x : Input} {p' : Proposer} {outbound : List Outgoing}
      (cause : x = .trust p.id ∨ p.phase ≠ .idle) (asks : Asks p p' outbound) :
      Acts p x p' { outbound }
  /-- It keeps one more promise. -/
  | gather {m : Promise} (topCounter : Nat) (phase_eq : p.phase = .one)
      (round_eq : m.round = p.round) :
      Acts p (.promise m) { p with topCounter, promises := recordPromise p.promises m } {}
  /-- It gets ready, and fills the pipeline. -/
  | fill {x : Input} {q p' : Proposer} {outbound : List Outgoing} {taken : Option Value}
      (readies : Readies p x q taken) (fills : q.fill = .ok (p', outbound)) :
      Acts p x p' { outbound, taken }
  /-- It sends again what it proposed. -/
  | resend {x : Input} {window : Window Proposal} (phase_eq : p.phase = .two)
      (recounted : p.Recounted window)
      (below : ∀ slot ∈ p.unanswered.map Prod.fst, resendsIn p.window slot < p.resendThreshold) :
      Acts p x { p with window } { outbound := p.resent }

/-- A proposer asks for promises after changes that do not matter. -/
theorem asks_of_askPromises {p q p' : Proposer} {out : List Outgoing}
    (h : q.askPromises = .ok (p', out)) (hlow : p.window.low = p.adu + 1) (hid : q.id = p.id)
    (hquorum : q.quorum = p.quorum) (hround : q.round = p.round)
    (hqlow : q.window.low = p.window.low)
    (hvalue : ∀ t, q.valueAt t = p.valueAt t ∧ q.ownAt t = p.ownAt t)
    (hadu : q.adu = p.adu) (hnext : q.nextSlot = p.nextSlot) (hqueue : q.queue = p.queue) :
    Asks p p' out := by
  obtain ⟨round, window, habove, howner, hbottom, hcounter, hlow', hsame, hown, htaken, rfl, rfl⟩ :=
    askPromises_cases (by rw [hqlow, hadu, hlow]) h
  exact
    { id_eq := hid
      quorum_eq := hquorum
      above := hround ▸ habove
      owner_eq := howner.trans hid
      not_bottom := hbottom
      counter_lt := hcounter
      phase_eq := rfl
      promises_eq := rfl
      low_eq := hlow'.trans hqlow
      valueAt_eq := fun t => (hsame t).trans (hvalue t).1
      ownAt_eq := fun t => (hown t).trans (hvalue t).2
      takenIn_eq := htaken
      adu_eq := hadu
      nextSlot_eq := hnext
      queue_eq := hqueue
      out_eq := by rw [hid, hadu] }

/-- A proposer that is told to trust somebody stops, goes on as before, or asks for promises. -/
theorem acts_of_trust {p p' : Proposer} {leader : Nat} {out : List Outgoing}
    (hlow : p.window.low = p.adu + 1) (h : p.trust leader = .ok (p', out)) :
    Acts p (.trust leader) p' { outbound := out } := by
  unfold trust at h
  dsimp only at h
  split at h
  · cases h
    exact .quiet ⟨rfl, rfl, rfl, rfl, rfl, rfl, rfl, Or.inl ⟨rfl, rfl⟩⟩
  rename_i hself
  rw [not_not] at hself
  split at h
  · cases h
    exact .quiet ⟨rfl, rfl, rfl, rfl, rfl, rfl, rfl, Or.inr ⟨rfl, rfl⟩⟩
  · exact .ask (Or.inl (by rw [hself]))
      (asks_of_askPromises h hlow rfl rfl rfl rfl (fun _ => ⟨rfl, rfl⟩) rfl rfl rfl)

/-- A value is taken and waits for the pipeline to be filled, or nothing happens. -/
theorem submit_cases {p p' : Proposer} {value : Value} {result : Except Fault (List Outgoing)}
    (h : p.submit value = .ok (p', result)) :
    (p' = p ∧ ∃ fault, result = .error fault) ∨ p.isLeader = true ∧ ∃ out, result = .ok out ∧
      fill { p with queue := p.queue ++ [value] } = .ok (p', out) := by
  unfold submit at h
  split at h
  · cases h
    exact Or.inl ⟨rfl, _, rfl⟩
  · rename_i hleads
    obtain ⟨⟨p₁, out⟩, hfill, hret⟩ := Checked.bind_eq_ok_iff.mp h
    cases hret
    exact Or.inr ⟨by simpa using hleads, out, rfl, hfill⟩

/-- A proposer that waits for promises asks for them again. -/
theorem acts_of_retry {p p' : Proposer} {out : List Outgoing} (hlow : p.window.low = p.adu + 1)
    (h : p.retry = .ok (p', out)) : Acts p .retry p' { outbound := out } := by
  unfold retry at h
  split at h
  · rename_i hleads
    rw [Bool.and_eq_true, beq_iff_eq] at hleads
    exact .ask (Or.inr (by rw [hleads.2]; simp))
      (asks_of_askPromises h hlow rfl rfl rfl rfl (fun _ => ⟨rfl, rfl⟩) rfl rfl rfl)
  · cases h
    exact .quiet ⟨rfl, rfl, rfl, rfl, rfl, rfl, rfl, Or.inr ⟨rfl, rfl⟩⟩

/-- Every step is one of these. -/
theorem acts_of_act {p p' : Proposer} {x : Input} {out : Output}
    (hlow : p.window.low = p.adu + 1) (h : p.act x = .ok (p', out)) : Acts p x p' out := by
  cases x with
  | trust leader =>
    obtain ⟨⟨p₁, outbound⟩, htrust, hret⟩ := Checked.bind_eq_ok_iff.mp h
    obtain ⟨rfl, rfl⟩ := Prod.mk.inj (Except.ok.inj hret)
    exact acts_of_trust hlow htrust
  | promise m =>
    obtain ⟨⟨p₁, outbound⟩, hpromise, hret⟩ := Checked.bind_eq_ok_iff.mp h
    obtain ⟨rfl, rfl⟩ := Prod.mk.inj (Except.ok.inj hret)
    obtain ⟨topCounter, ⟨-, rfl, rfl⟩ | ⟨hphase, hround, ⟨-, rfl, rfl⟩ | ⟨henough, hbegin⟩⟩⟩ :=
      promise_cases hpromise
    · exact .quiet ⟨rfl, rfl, rfl, rfl, rfl, rfl, rfl, Or.inr ⟨rfl, rfl⟩⟩
    · exact .gather topCounter hphase hround
    · obtain ⟨ownBefore, hown, hfill⟩ := beginProposing_cases hbegin
      exact .fill (.begins topCounter ownBefore hphase hround henough hown) hfill
  | submit value =>
    obtain ⟨⟨p₁, result⟩, hsubmit, hret⟩ := Checked.bind_eq_ok_iff.mp h
    rcases submit_cases hsubmit with ⟨rfl, fault, rfl⟩ | ⟨hleads, outbound, rfl, hfill⟩
    · cases hret
      exact .quiet ⟨rfl, rfl, rfl, rfl, rfl, rfl, rfl, Or.inr ⟨rfl, rfl⟩⟩
    · cases hret
      exact .fill (.submits value hleads) hfill
  | hear round =>
    cases h
    exact .quiet ⟨rfl, rfl, rfl, rfl, rfl, rfl, rfl, Or.inr ⟨rfl, rfl⟩⟩
  | noteDelivered adu decided =>
    obtain ⟨⟨p₁, outbound⟩, hnote, hret⟩ := Checked.bind_eq_ok_iff.mp h
    obtain ⟨rfl, rfl⟩ := Prod.mk.inj (Except.ok.inj hret)
    rcases noteDelivered_cases hnote with ⟨-, rfl, rfl⟩ | ⟨habove, hfits, hfill⟩
    · exact .quiet ⟨rfl, rfl, rfl, rfl, rfl, rfl, rfl, Or.inr ⟨rfl, rfl⟩⟩
    · exact .fill (.advances adu decided habove hfits) hfill
  | retry =>
    obtain ⟨⟨p₁, outbound⟩, hretry, hret⟩ := Checked.bind_eq_ok_iff.mp h
    obtain ⟨rfl, rfl⟩ := Prod.mk.inj (Except.ok.inj hret)
    exact acts_of_retry hlow hretry
  | checkProgress =>
    obtain ⟨⟨p₁, outbound⟩, hcheck, hret⟩ := Checked.bind_eq_ok_iff.mp h
    obtain ⟨rfl, rfl⟩ := Prod.mk.inj (Except.ok.inj hret)
    cases checks_of_checkProgress hcheck with
    | rests => exact .quiet ⟨rfl, rfl, rfl, rfl, rfl, rfl, rfl, Or.inr ⟨rfl, rfl⟩⟩
    | notes => exact .quiet ⟨rfl, rfl, rfl, rfl, rfl, rfl, rfl, Or.inr ⟨rfl, rfl⟩⟩
    | renews phase_eq low_eq record_eq asks =>
      refine .ask (Or.inr (by rw [phase_eq]; simp))
        (asks_of_askPromises asks hlow rfl rfl rfl low_eq (fun t => ⟨?_, ?_⟩) rfl rfl rfl)
      · rw [valueAt, ← value_getD, record_eq, value_getD, valueAt]
      · rw [ownAt, ← own?_getD, record_eq, own?_getD, ownAt]
    | resends phase_eq _ recounted below => exact .resend phase_eq recounted below
  | setEpochs epochs =>
    cases h
    exact .quiet ⟨rfl, rfl, rfl, rfl, rfl, rfl, rfl, Or.inr ⟨rfl, rfl⟩⟩

/-- A proposer that is ready is the same one, and its window begins after the decided slots. -/
theorem low_of_readies {p q : Proposer} {x : Input} {taken : Option Value}
    (hlow : p.window.low = p.adu + 1) (h : Readies p x q taken) :
    q.id = p.id ∧ q.window.low = q.adu + 1 := by
  cases h with
  | begins topCounter ownBefore => exact ⟨rfl, (low_begun _ _).trans hlow⟩
  | submits value => exact ⟨rfl, hlow⟩
  | advances adu decided above =>
    refine ⟨rfl, ?_⟩
    simp only [advanced, Window.low_raise]
    omega

theorem low_of_fill {p p' : Proposer} {out : List Outgoing} (hlow : p.window.low = p.adu + 1)
    (h : p.fill = .ok (p', out)) :
    p'.id = p.id ∧ p'.window.low = p'.adu + 1 ∧ ∀ o ∈ out, o.author = (.proposer, p.id) := by
  rcases fill_cases h with ⟨-, rfl, rfl⟩ | ⟨-, -, room, f, -, hf, rfl, rfl⟩
  · exact ⟨rfl, hlow, by simp⟩
  · refine ⟨rfl, hf.low_eq.trans hlow, fun o ho => ?_⟩
    obtain ⟨sent, -, rfl⟩ := List.mem_map.mp ho
    rfl

/-- A proposer keeps its name, and speaks in no other; its window begins after the decided slots. -/
theorem author_of_act {p p' : Proposer} {x : Input} {out : Output}
    (hlow : p.window.low = p.adu + 1) (h : p.act x = .ok (p', out)) :
    p'.id = p.id ∧ p'.window.low = p'.adu + 1 ∧
      ∀ o ∈ out.outbound, o.author = (.proposer, p.id) := by
  cases acts_of_act hlow h with
  | quiet same =>
    refine ⟨same.id_eq, ?_, by simp⟩
    rw [same.window_eq, same.adu_eq, hlow]
  | ask cause asks =>
    refine ⟨asks.id_eq, ?_, fun o ho => ?_⟩
    · rw [asks.low_eq, asks.adu_eq, hlow]
    · rw [asks.out_eq, List.mem_singleton] at ho
      subst ho
      rfl
  | gather topCounter => exact ⟨rfl, hlow, by simp⟩
  | fill readies fills =>
    obtain ⟨hid, hqlow⟩ := low_of_readies hlow readies
    rw [← hid]
    exact low_of_fill hqlow fills
  | resend _ recounted =>
    refine ⟨rfl, recounted.low_eq.trans hlow, fun o ho => ?_⟩
    obtain ⟨slot, value, -, -, -, rfl⟩ := of_mem_resent ho
    rfl

/-- Having heard of a round makes no difference to that. -/
theorem author_of_hear_act {p p' : Proposer} {round : Round} {x : Input} {out : Output}
    (hlow : p.window.low = p.adu + 1) (h : (p.hear round).act x = .ok (p', out)) :
    p'.id = p.id ∧ p'.window.low = p'.adu + 1 ∧
      ∀ o ∈ out.outbound, o.author = (.proposer, p.id) :=
  author_of_act (p := p.hear round) hlow h

theorem adu_of_fill {p p' : Proposer} {out : List Outgoing} (h : p.fill = .ok (p', out)) :
    p'.adu = p.adu ∧ ∀ m, ¬ Said out (.prepare m) := by
  rcases fill_cases h with ⟨-, rfl, rfl⟩ | ⟨-, -, room, f, -, -, rfl, rfl⟩
  · exact ⟨rfl, fun _ => not_said_nil⟩
  · refine ⟨rfl, fun m ⟨o, ho, heq⟩ => ?_⟩
    obtain ⟨sent, -, rfl⟩ := List.mem_map.mp ho
    cases heq

/-- A proposer learns of decided slots by hearing of deliveries only, and asks for promises from these
slots on. -/
theorem adu_of_act {p p' : Proposer} {x : Input} {out : Output} (hlow : p.window.low = p.adu + 1)
    (h : p.act x = .ok (p', out)) :
    (p'.adu = p.adu ∨ ∃ decided, x = .noteDelivered p'.adu decided) ∧
      ∀ m, Said out.outbound (.prepare m) → m.sender = p.id ∧ m.slot = p.adu := by
  cases acts_of_act hlow h with
  | quiet same => exact ⟨Or.inl same.adu_eq, fun m hm => absurd hm not_said_nil⟩
  | ask cause asks =>
    refine ⟨Or.inl asks.adu_eq, fun m hm => ?_⟩
    rw [asks.out_eq, said_singleton, Outgoing.message, Message.prepare.injEq] at hm
    subst hm
    exact ⟨rfl, rfl⟩
  | gather => exact ⟨Or.inl rfl, fun m hm => absurd hm not_said_nil⟩
  | fill readies fills =>
    obtain ⟨hadu, hnone⟩ := adu_of_fill fills
    refine ⟨?_, fun m hm => absurd hm (hnone m)⟩
    cases readies with
    | begins => exact Or.inl hadu
    | submits => exact Or.inl hadu
    | advances adu decided => exact Or.inr ⟨decided, by rw [hadu]; rfl⟩
  | resend =>
    refine ⟨Or.inl rfl, fun m hm => ?_⟩
    obtain ⟨_, _, -, -, -, heq⟩ := said_of_proposals (fun _ => of_mem_resent) hm
    cases heq

/-- A proposer that is ready is not to propose for a slot that is decided. -/
theorem adu_lt_of_readies {p q : Proposer} {x : Input} {taken : Option Value}
    (hlt : p.adu < p.nextSlot) (h : Readies p x q taken) : q.adu < q.nextSlot := by
  cases h with
  | begins => exact Nat.lt_succ_self p.adu
  | submits => exact hlt
  | advances adu decided => exact (nextSlot_advanced p adu decided).2

/-- A proposer is never to propose for a slot that is decided. -/
theorem adu_lt_of_act {p p' : Proposer} {x : Input} {out : Output}
    (hlow : p.window.low = p.adu + 1) (hlt : p.adu < p.nextSlot) (h : p.act x = .ok (p', out)) :
    p'.adu < p'.nextSlot := by
  cases acts_of_act hlow h with
  | quiet same => rwa [same.adu_eq, same.nextSlot_eq]
  | ask _ asks => rwa [asks.adu_eq, asks.nextSlot_eq]
  | gather => exact hlt
  | fill readies fills =>
    have hready := adu_lt_of_readies hlt readies
    rcases fill_cases fills with ⟨-, rfl, -⟩ | ⟨-, -, room, f, -, -, rfl, -⟩
    · exact hready
    · exact hready.trans_le (Nat.le_add_right _ _)
  | resend => exact hlt

/-- What a step proposes, it proposes in phase two, in the current round, for a slot that is neither
decided nor still to come and that has the value. -/
theorem accept_of_act {p p' : Proposer} {x : Input} {out : Output} {m : Accept}
    (hlow : p.window.low = p.adu + 1) (hlt : p.adu < p.nextSlot) (h : p.act x = .ok (p', out))
    (hm : Said out.outbound (.accept m)) : p'.phase = .two ∧ m.round = p'.round ∧
      p'.adu < m.slot ∧ m.slot < p'.nextSlot ∧ p'.valueAt m.slot = some m.value := by
  cases acts_of_act hlow h with
  | quiet => exact absurd hm not_said_nil
  | ask _ asks => simp [asks.out_eq, Outgoing.message] at hm
  | gather => exact absurd hm not_said_nil
  | fill readies fills =>
    obtain ⟨slot, value, hadu, hnext, hvalue, heq⟩ :=
      said_of_proposals (proposals_of_fill (adu_lt_of_readies hlt readies) fills) hm
    cases heq
    rcases fill_cases fills with ⟨-, -, rfl⟩ | ⟨-, htwo, room, f, -, -, rfl, -⟩
    · exact absurd hm not_said_nil
    · exact ⟨htwo, rfl, hadu, hnext, hvalue⟩
  | resend phase_eq recounted =>
    obtain ⟨slot, value, hadu, hnext, hvalue, heq⟩ :=
      said_of_proposals (fun _ => of_mem_resent) hm
    cases heq
    exact ⟨phase_eq, rfl, hadu, hnext, (recounted.valueIn_eq slot).trans hvalue⟩

/-- A proposer that does not lead says nothing, unless it is told to lead. -/
theorem idle_of_act {p p' : Proposer} {x : Input} {out : Output} (hlow : p.window.low = p.adu + 1)
    (hidle : p.phase = .idle) (hx : x ≠ .trust p.id) (h : p.act x = .ok (p', out)) :
    p'.phase = .idle ∧ out.outbound = [] := by
  cases acts_of_act hlow h with
  | quiet same =>
    refine ⟨?_, rfl⟩
    rcases same.phase_cases with ⟨heq, -⟩ | ⟨heq, -⟩
    · exact heq
    · exact heq.trans hidle
  | ask cause => exact absurd hidle (cause.resolve_left hx)
  | gather _ phase_eq => exact absurd (hidle.symm.trans phase_eq) (by simp)
  | @fill _ q _ _ _ readies fills =>
    have hq : q.phase = .idle := by
      cases readies with
      | begins _ _ phase_eq => exact absurd (hidle.symm.trans phase_eq) (by simp)
      | submits => exact hidle
      | advances => exact hidle
    rcases fill_cases fills with ⟨-, rfl, rfl⟩ | ⟨-, htwo, -⟩
    · exact ⟨hq, rfl⟩
    · exact absurd (hq.symm.trans htwo) (by simp)
  | resend phase_eq => exact absurd (hidle.symm.trans phase_eq) (by simp)

end Proposer

end ReplicatedLog
