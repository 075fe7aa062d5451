import Mathlib.Algebra.Group.Nat.Defs
import ReplicatedLog.Proofs.Extent
import ReplicatedLog.Proofs.ProposerRuns

/-!
# Headroom of a proposer

The sums that a proposer computes are about slots, counters of rounds and counts of how often something was
sent again. What it hears of is bounded by what happens to it, and what it counts itself grows by one in a
step at most. This is kept by every step, and it leaves room for the sums of the next one
(`Proposer.HasRoom.act`), so a proposer that starts with room takes as many steps as there is room for.

Two numbers are not bounded by this. One is the end of the pipeline, `adu + alpha`: the settings may make
`alpha` as large as a word holds, and then a leader that hears of deliveries fails at once. The other is the
number of holes that a leader fills as it begins (`Proposer.TooManyHoles`), which has to fit in 31 bits: a
report may be about a slot that lies further ahead than that. If the deliveries leave room for the pipeline,
then a promise that makes a leader find too many holes is all that makes a step fail (`Proposer.takes_all`).
-/

namespace ReplicatedLog

namespace Proposer

variable {p p' : Proposer} {w : Window Proposal} {b n : Nat}

/-! ### How far the window extends -/

theorem stop_forgetRound_le {first stop : Nat} (hw : w.stop ≤ b) (hstop : stop ≤ b) :
    (forgetRound w first stop).stop ≤ b := by
  refine Window.stop_foldl_modify_le (fun slot => slot) _ hw fun slot hslot => ?_
  have hslot := List.mem_range'_1.mp hslot
  omega

/-- Looking at slots extends the window to the last of them at most. -/
theorem stop_foldl_touch_le (first : Nat) {stop : Nat} (hw : w.stop ≤ b) (hstop : stop ≤ b) :
    ((List.range' first (stop - first)).foldl Window.touch w).stop ≤ b := by
  refine List.foldlRecOn (motive := fun w : Window Proposal => w.stop ≤ b) _ _ hw ?_
  intro w hw slot hslot
  have hslot := List.mem_range'_1.mp hslot
  exact Window.stop_touch_le hw (by omega)

/-- Filling the pipeline extends the window to the end of the room at most. -/
theorem stop_fillFrom_le {room slot : Nat} {queue : List Value} (hw : w.stop ≤ b)
    (hroom : slot + room ≤ b) : (fillFrom room slot w queue).window.stop ≤ b := by
  fun_induction fillFrom room slot w queue with
  | case1 => exact hw
  | case2 room slot w => exact Window.stop_touch_le hw (by omega)
  | case3 room slot w window value takenFrom own resends queue _ window' rest ih =>
    have hwindow' : window'.stop ≤ b :=
      Window.stop_modify_le (Window.stop_touch_le hw (by omega)) (by omega) _
    exact ih hwindow' (by omega)
  | case4 room slot w window takenFrom own resends value queue _ window' rest ih =>
    have hwindow' : window'.stop ≤ b :=
      Window.stop_modify_le (Window.stop_touch_le hw (by omega)) (by omega) _
    exact ih hwindow' (by omega)
  | case5 room slot w => exact Window.stop_touch_le hw (by omega)

theorem stop_seeded_le (hw : p.window.stop ≤ b) (hreports : ∀ r ∈ p.reports, r.slot < b) :
    p.seeded.stop ≤ b := by
  unfold seeded
  refine List.foldlRecOn (motive := fun w : Window Proposal => w.stop ≤ b) _ _ hw ?_
  intro w hw r hr
  unfold seed
  split
  · exact hw
  · exact Window.stop_modify_le hw (hreports r hr) _

/-- A slot that has a value is within the window. -/
theorem lt_stop_of_valueAt {slot : Nat} {value : Value} (h : p.valueAt slot = some value) :
    slot < p.window.stop := by
  obtain ⟨_, hget, -⟩ := Option.bind_eq_some_iff.mp h
  exact (Window.isSome_get?_iff.mp (Option.isSome_of_mem hget)).2

/-- Beginning to propose extends the window to the last slot with a report at most. -/
theorem stop_begun_le {ownBefore : List (Nat × Value)} (hown : p.ownValues = .ok ownBefore)
    (hw : p.window.stop ≤ b) (hadu : p.adu < b) (hreports : ∀ r ∈ p.reports, r.slot < b) :
    (p.begun ownBefore).window.stop ≤ b := by
  have hlast : p.lastReported < b := by
    rcases lastReported_cases p with heq | ⟨r, hr, heq⟩
    · rwa [heq]
    · exact heq ▸ hreports r hr
  have hrestored : (restore p.seeded ownBefore).stop ≤ b := by
    refine Window.stop_foldl_modify_le Prod.fst _ (stop_seeded_le hw hreports) ?_
    rintro ⟨slot, value⟩ hmem
    exact (lt_stop_of_valueAt (valueAt_of_mem_ownValues hown hmem).2).trans_le hw
  refine Window.stop_foldl_modify_le (fun slot => slot) _ hrestored fun slot hslot => ?_
  have hlt := (List.mem_range'_1.mp hslot).2
  omega

/-! ### How many holes there are -/

/-- There are no more holes than slots up to the last one with a report. -/
theorem holesFound_le (p : Proposer) : p.holesFound ≤ p.lastReported - p.adu :=
  List.countP_le_length.trans_eq List.length_range'

/-- Slots that have no value and are not reported, below one that is, are holes. -/
theorem le_holesFound {k : Nat} (hlow : p.window.low = p.adu + 1) (hlast : p.adu + k ≤ p.lastReported)
    (hreports : ∀ r ∈ p.reports, p.adu + k < r.slot)
    (hvalue : ∀ t, p.adu < t → t ≤ p.adu + k → p.valueAt t = none) : k ≤ p.holesFound := by
  have hsplit : List.range' (p.adu + 1) (p.lastReported - p.adu) =
      List.range' (p.adu + 1) k ++ List.range' (p.adu + 1 + k) (p.lastReported - p.adu - k) := by
    rw [List.range'_append_1]
    congr 1
    omega
  have hholes : ∀ t ∈ List.range' (p.adu + 1) k,
      (decide (p.seeded.low ≤ t) && ((p.seeded.get? t).bind Proposal.value).isNone) = true := by
    intro t ht
    have ht := List.mem_range'_1.mp ht
    have hnone : valueIn p.seeded t = none := by
      rw [valueIn_seeded_of_ne fun r hr => by have := hreports r hr; omega]
      exact hvalue t (by omega) (by omega)
    rw [low_seeded, Bool.and_eq_true, decide_eq_true_eq]
    exact ⟨by omega, Option.isNone_iff_eq_none.mpr hnone⟩
  unfold holesFound holes
  rw [hsplit, List.countP_append, List.countP_eq_length.mpr hholes, List.length_range']
  exact Nat.le_add_right k _

/-- With this promise the proposer has a quorum, and finds more holes than can be counted. -/
def TooManyHoles (p : Proposer) (m : Promise) : Prop :=
  p.isLeader = true ∧ p.phase = .one ∧ m.round = p.round ∧
    p.mode.quorumOfPromises (recordPromise p.promises m) p.quorum ≠ none ∧
    Word.countSize ≤ holesFound { p with promises := recordPromise p.promises m }

/-! ### How often something was sent again -/

theorem resendsIn_modify_of_resends_eq {slot : Nat} {g : Proposal → Proposal}
    (hg : ∀ e, (g e).resends = e.resends) (t : Nat) :
    resendsIn (w.modify slot g) t = resendsIn w t := by
  rw [resendsIn_modify]
  split
  · exact hg _
  · rfl

/-- A new round counts from the start. -/
theorem resendsIn_forgetRound_le (w : Window Proposal) (first stop t : Nat) :
    resendsIn (forgetRound w first stop) t ≤ resendsIn w t := by
  unfold forgetRound
  refine List.foldlRecOn (motive := fun w' => resendsIn w' t ≤ resendsIn w t) _ _ (Nat.le_refl _) ?_
  intro w' hw' slot _
  rw [resendsIn_modify]
  split
  · exact Nat.zero_le _
  · exact hw'

theorem resendsIn_raise_le (w : Window Proposal) (below t : Nat) :
    resendsIn (w.raise below) t ≤ resendsIn w t := by
  unfold resendsIn
  rw [Window.getD_get?_raise]
  split
  · exact Nat.zero_le _
  · exact Nat.le_refl _

/-- Beginning to propose counts nothing. -/
theorem resendsIn_begun (p : Proposer) (ownBefore : List (Nat × Value)) (t : Nat) :
    resendsIn (p.begun ownBefore).window t = resendsIn p.window t := by
  have hseeded : resendsIn p.seeded t = resendsIn p.window t := by
    unfold seeded
    refine List.foldlRecOn (motive := fun w => resendsIn w t = resendsIn p.window t) _ _ rfl ?_
    intro w hw r _
    unfold seed
    split
    · exact hw
    · refine (resendsIn_modify_of_resends_eq (fun e => ?_) t).trans hw
      split <;> rfl
  have hrestored : resendsIn (restore p.seeded ownBefore) t = resendsIn p.window t := by
    unfold restore
    refine List.foldlRecOn (motive := fun w => resendsIn w t = resendsIn p.window t) _ _ hseeded ?_
    intro w hw own _
    refine (resendsIn_modify_of_resends_eq (fun e => ?_) t).trans hw
    split <;> rfl
  unfold begun plug
  refine List.foldlRecOn (motive := fun w => resendsIn w t = resendsIn p.window t) _ _ hrestored ?_
  intro w hw slot _
  refine (resendsIn_modify_of_resends_eq (fun e => ?_) t).trans hw
  split <;> rfl

/-! ### Room -/

/-- The slots that an input asks about and the counters that it tells of are below `b`. -/
def Input.Within (b : Nat) : Input → Prop
  | .promise m => m.round.counter < b ∧ ∀ r ∈ m.reports, r.slot < b ∧ r.round.counter < b
  | .hear round => round.counter < b
  | .noteDelivered adu decided => adu < b ∧ ∀ d ∈ decided, d.1 < b
  | _ => True

instance (b : Nat) (x : Input) : Decidable (x.Within b) := by
  unfold Input.Within
  split <;> infer_instance

/-- The last slot that an input tells was delivered. -/
def Input.delivered : Input → Nat
  | .noteDelivered adu _ => adu
  | _ => 0

/-- An input reports votes for slots below `b` only. -/
def Input.ReportsBelow (b : Nat) : Input → Prop
  | .promise m => ∀ r ∈ m.reports, r.slot < b
  | _ => True

instance (b : Nat) (x : Input) : Decidable (x.ReportsBelow b) := by
  unfold Input.ReportsBelow
  split <;> infer_instance

/-- The inputs report votes for fewer than `2 ^ 31` slots beyond those that were delivered: up to `adu`,
and up to what they have told. -/
def ReportsNear : (adu : Nat) → List Input → Prop
  | _, [] => True
  | adu, x :: xs => x.ReportsBelow (adu + Word.countSize) ∧ ReportsNear (max adu x.delivered) xs

instance decidableReportsNear : (adu : Nat) → (xs : List Input) → Decidable (ReportsNear adu xs)
  | _, [] => inferInstanceAs (Decidable True)
  | adu, x :: xs =>
    have := decidableReportsNear (max adu x.delivered) xs
    inferInstanceAs (Decidable (_ ∧ _))

/-- After `n` steps, in which no slots or counters from `b` on were heard of, there is room for the sums
of the next one. -/
structure HasRoom (b n : Nat) (p : Proposer) : Prop where
  /-- The slot after the pipeline fits in a word. -/
  pipeline : p.adu + p.alpha < Word.top
  /-- It is not to propose for a slot beyond that one. -/
  nextSlot_le : p.nextSlot ≤ p.adu + p.alpha + 1
  /-- The window does not extend further. -/
  stop_le : p.window.stop ≤ Word.top
  /-- It heard of no counter beyond the bound. -/
  topCounter_le : p.topCounter ≤ b
  /-- In a step it counts its rounds up by one at most. -/
  counter_le : p.round.counter ≤ b + n
  /-- It knows of no vote beyond the bound. -/
  slot_lt : ∀ r ∈ p.reports, r.slot < b
  /-- In a step nothing is sent again more than once. -/
  resends_le : ∀ t, resendsIn p.window t ≤ n

/-- A proposer that is set up with an `alpha` below the greatest word has room. -/
theorem hasRoom_start (s : RoleSettings) (id : Nat) (epochs : EpochVector) (b : Nat)
    (halpha : s.alpha < Word.top) : HasRoom b 0 (Replica.start s id epochs).proposer where
  pipeline := (Nat.zero_add _).trans_lt halpha
  nextSlot_le := Nat.le_add_left 1 _
  stop_le := show 1 ≤ Word.top by decide
  topCounter_le := Nat.zero_le _
  counter_le := Nat.zero_le _
  slot_lt _ hr := nomatch hr
  resends_le t := by
    show resendsIn {} t ≤ 0
    rw [resendsIn, Window.get?_empty]
    rfl

theorem HasRoom.succ (h : HasRoom b n p) : HasRoom b (n + 1) p :=
  { h with
    counter_le := h.counter_le.trans (Nat.add_le_add_left (Nat.le_succ n) b)
    resends_le := fun t => (h.resends_le t).trans (Nat.le_succ n) }

/-- A part of a step does not fail, and the proposer has room afterwards. -/
def Leaves (b n : Nat) {α : Type} (r : Checked (Proposer × α)) : Prop :=
  ∃ p a, r = .ok (p, a) ∧ HasRoom b n p

theorem HasRoom.leaves {α : Type} (h : HasRoom b n p) (a : α) : Leaves b n (.ok (p, a)) :=
  ⟨p, a, rfl, h⟩

/-- A sum that fits does not make a part of a step fail. -/
theorem Leaves.of_ok {α β : Type} {x : Checked β} {y : β} {f : β → Checked (Proposer × α)}
    (hx : x = .ok y) (h : Leaves b n (f y)) : Leaves b n (x >>= f) := by
  rw [hx]
  exact h

theorem Leaves.of_mapM {α β γ : Type} {xs : List β} {g : β → Checked γ}
    {f : List γ → Checked (Proposer × α)} (hxs : ∀ x ∈ xs, ∃ y, g x = .ok y)
    (h : ∀ ys, Leaves b n (f ys)) : Leaves b n (xs.mapM g >>= f) := by
  obtain ⟨ys, hys⟩ := Checked.exists_mapM hxs
  exact .of_ok hys (h ys)

/-- What a step does with the outcome of a part of it does not change the proposer. -/
theorem Leaves.bind {α β : Type} {r : Checked (Proposer × α)} (h : Leaves b n r)
    {f : Proposer × α → Checked (Proposer × β)} (hf : ∀ p a, ∃ c, f (p, a) = .ok (p, c)) :
    Leaves b n (r >>= f) := by
  obtain ⟨p, a, rfl, hp⟩ := h
  obtain ⟨c, hc⟩ := hf p a
  exact ⟨p, c, hc, hp⟩

/-! ### Parts of steps -/

/-- Asking for promises needs room for one more round. -/
theorem HasRoom.askPromises (h : HasRoom b n p) (hb : b + n < Word.top) :
    Leaves b (n + 1) p.askPromises := by
  obtain ⟨hpipeline, hnext, hstop, htop, hcounter, -, hresends⟩ := h
  have hsize : Word.size = Word.top + 1 := rfl
  have hhighest : p.window.highest + 1 ≤ Word.top := by
    have hone : 1 ≤ Word.top := by decide
    unfold Window.stop Window.length at hstop
    unfold Window.highest
    omega
  have hround : p.round.next p.topCounter p.id =
      .ok ⟨max p.round.counter p.topCounter + 1, p.id⟩ :=
    Checked.bind_eq_ok_iff.mpr ⟨_, Word.fit_eq_ok_iff.mpr ⟨by omega, rfl⟩, rfl⟩
  refine .of_ok hround (.of_ok (Word.fit_eq_ok_iff.mpr ⟨by omega, rfl⟩)
    (.of_ok (Word.fit_eq_ok_iff.mpr ⟨by omega, rfl⟩) (HasRoom.leaves ?_ _)))
  exact
    { pipeline := hpipeline
      nextSlot_le := hnext
      stop_le := stop_forgetRound_le hstop (by omega)
      topCounter_le := htop
      counter_le := by dsimp only; omega
      slot_lt := fun _ hr => nomatch hr
      resends_le := fun t => (resendsIn_forgetRound_le _ _ _ t).trans (by have := hresends t; omega) }

/-- Filling the pipeline needs no more room than there is. -/
theorem HasRoom.fill (h : HasRoom b n p) : Leaves b n p.fill := by
  by_cases hleads : p.isLeader = true ∧ p.phase = .two
  · have hsize : Word.size = Word.top + 1 := rfl
    have hpipeline := h.pipeline
    have hnext := h.nextSlot_le
    have hlength := length_sent_fillFrom_le (p.adu + p.alpha + 1 - p.nextSlot) p.nextSlot p.window
      p.queue
    have hresets := fillFrom_resets (p.adu + p.alpha + 1 - p.nextSlot) p.nextSlot p.window p.queue
    refine ⟨_, _, (fill_eq_ok_iff hleads.1 hleads.2).mpr ⟨by omega, by omega, rfl, rfl⟩, ?_⟩
    exact
      { h with
        nextSlot_le := by dsimp only; omega
        stop_le := stop_fillFrom_le h.stop_le (by omega)
        resends_le := fun t => by
          rw [hresets t]
          split
          · exact Nat.zero_le n
          · exact h.resends_le t }
  · have hfill : p.fill = .ok (p, []) := if_neg (by simpa using hleads)
    rw [hfill]
    exact h.leaves []

theorem HasRoom.exists_ownValues (h : HasRoom b n p) : ∃ ownBefore, p.ownValues = .ok ownBefore := by
  have hsize : Word.size = Word.top + 1 := rfl
  have hpipeline := h.pipeline
  obtain ⟨held, hheld⟩ := Window.exists_range (h.stop_le.trans_lt (Nat.lt_succ_self Word.top))
    (p.adu + 1) p.window.highest
  exact ⟨_, Checked.bind_eq_ok_iff.mpr ⟨_, Word.fit_eq_ok_iff.mpr ⟨by omega, rfl⟩,
    Checked.bind_eq_ok_iff.mpr ⟨held, hheld, rfl⟩⟩⟩

/-- Beginning to propose needs no more room than there is, apart from the count of the holes. -/
theorem HasRoom.beginProposing (h : HasRoom b n p) (hb : b ≤ Word.top)
    (hholes : p.holesFound < Word.countSize) : Leaves b n p.beginProposing := by
  have hpipeline := h.pipeline
  obtain ⟨ownBefore, hown⟩ := h.exists_ownValues
  have hbegun : HasRoom b n (p.begun ownBefore) :=
    { h with
      nextSlot_le := by simp only [begun]; omega
      stop_le := stop_begun_le hown h.stop_le (by omega) fun r hr => (h.slot_lt r hr).trans_le hb
      resends_le := fun t => (resendsIn_begun p ownBefore t).trans_le (h.resends_le t) }
  rw [beginProposing_eq]
  exact .of_ok hown (.of_ok (Word.fitCount_eq_ok_iff.mpr ⟨hholes, rfl⟩) hbegun.fill)

/-- Too many holes make the proposer fail. -/
theorem HasRoom.beginProposing_eq_error (h : HasRoom b n p) (hholes : Word.countSize ≤ p.holesFound) :
    p.beginProposing = .error .addition := by
  obtain ⟨ownBefore, hown⟩ := h.exists_ownValues
  have hcount : Word.fitCount p.holesFound = .error .addition := if_neg (Nat.not_lt.mpr hholes)
  rw [beginProposing_eq, hown, hcount]
  rfl

/-- What the reports of a promise tell of rounds stays within the bound. -/
theorem hear_reports_le {reports : List Report} (hp : p.topCounter ≤ b)
    (hreports : ∀ r ∈ reports, r.round.counter ≤ b) :
    ∃ topCounter ≤ b, reports.foldl (fun p r => p.hear r.round) p = { p with topCounter } := by
  refine List.foldlRecOn (motive := fun p' : Proposer =>
    ∃ topCounter ≤ b, p' = { p with topCounter }) _ _ ⟨p.topCounter, hp, rfl⟩ ?_
  rintro _ ⟨topCounter, hle, rfl⟩ r hr
  exact ⟨_, max_le hle (hreports r hr), rfl⟩

/-- A promise that tells of nothing beyond the bound can be taken, unless it makes the proposer find too
many holes. -/
theorem HasRoom.promise (h : HasRoom b n p) (hb : b ≤ Word.top) {m : Promise}
    (hm : Input.Within b (.promise m)) :
    (¬ p.TooManyHoles m → Leaves b n (p.promise m)) ∧
      (p.TooManyHoles m → p.promise m = .error .addition) := by
  obtain ⟨hround, hreports⟩ := hm
  obtain ⟨topCounter, htop, hheard⟩ := hear_reports_le (p := p.hear m.round) (b := b)
    (max_le h.topCounter_le hround.le) fun r hr => (hreports r hr).2.le
  have hroom : HasRoom b n { p with topCounter } := { h with topCounter_le := htop }
  have hgathered : HasRoom b n { p with topCounter, promises := recordPromise p.promises m } := by
    refine { hroom with slot_lt := fun r hr => ?_ }
    obtain ⟨m', hm', hrm'⟩ := List.mem_flatMap.mp hr
    rcases mem_recordPromise hm' with heq | hm'
    · exact (hreports r (heq ▸ hrm')).1
    · exact h.slot_lt r (List.mem_flatMap.mpr ⟨m', hm', hrm'⟩)
  unfold Proposer.promise
  rw [hheard]
  dsimp only [hear]
  split
  · rename_i hignored
    refine ⟨fun _ => hroom.leaves [], fun hmany => ?_⟩
    obtain ⟨hleads, hphase, hround, -, -⟩ := hmany
    simp only [hphase, hround, bne_self_eq_false, Bool.or_false, Bool.not_eq_true'] at hignored
    exact absurd (hleads.symm.trans hignored) (by simp)
  rename_i hcounts
  simp only [Bool.or_eq_true, Bool.not_eq_true', bne_iff_ne, not_or, not_not] at hcounts
  split
  · rename_i hnone
    exact ⟨fun _ => hgathered.leaves [], fun ⟨_, _, _, hquorum, _⟩ => absurd hnone hquorum⟩
  · rename_i positions hquorum
    refine ⟨fun hfew => hgathered.beginProposing hb (Nat.not_le.mp fun hholes => hfew ?_),
      fun ⟨_, _, _, _, hholes⟩ => hgathered.beginProposing_eq_error hholes⟩
    exact ⟨(Bool.not_eq_false _).mp hcounts.1.1, hcounts.1.2, hcounts.2, by rw [hquorum]; simp, hholes⟩

/-- The proposer hears of deliveries that leave room for the pipeline. -/
theorem HasRoom.noteDelivered (h : HasRoom b n p) {adu : Nat} (hadu : adu + p.alpha < Word.top)
    (decided : List (Nat × Value)) : Leaves b n (p.noteDelivered adu decided) := by
  have hsize : Word.size = Word.top + 1 := rfl
  have hnext := h.nextSlot_le
  unfold Proposer.noteDelivered
  split
  · exact h.leaves []
  rename_i habove
  have hadvanced : HasRoom b n (p.advanced adu decided) :=
    { h with
      pipeline := hadu
      nextSlot_le := by simp only [advanced]; split <;> omega
      stop_le := Window.stop_raise_le h.stop_le (by omega)
      resends_le := fun t => (resendsIn_raise_le _ _ t).trans (h.resends_le t) }
  exact .of_ok (Word.fit_eq_ok_iff.mpr ⟨by omega, rfl⟩) hadvanced.fill

/-- A check for progress needs room for one more round, or for one more count. -/
theorem HasRoom.checkProgress (h : HasRoom b n p) (hb : b + n < Word.top)
    (hn : n + 1 < Word.halfSize) : Leaves b (n + 1) p.checkProgress := by
  have hsize : Word.size = Word.top + 1 := rfl
  have hpipeline := h.pipeline
  have hnext := h.nextSlot_le
  unfold Proposer.checkProgress
  split
  · exact h.succ.leaves []
  split
  · refine HasRoom.leaves ?_ []
    exact { h.succ with pipeline := hpipeline }
  obtain ⟨hlow, hrecord⟩ := getD_get?_foldl_touch p.window
    (List.range' (p.adu + 1) (p.nextSlot - (p.adu + 1)))
  have hproposed : p.nextSlot ≤ Word.top := by omega
  have hstop := stop_foldl_touch_le (p.adu + 1) h.stop_le hproposed
  refine .of_ok (Word.fit_eq_ok_iff.mpr ⟨by omega, rfl⟩) ?_
  dsimp only
  generalize (List.range' (p.adu + 1) (p.nextSlot - (p.adu + 1))).foldl Window.touch p.window =
    window at hlow hrecord hstop ⊢
  rw [filterMap_eq_unanswered p hrecord]
  -- all that is to be sent again is counted
  refine Leaves.of_mapM (fun pending hpending => ?_) fun _ => ?_
  · obtain ⟨⟨slot, value⟩, -, rfl⟩ := List.mem_map.mp hpending
    have hresends : resendsIn p.window slot + 1 < Word.halfSize :=
      (Nat.succ_le_succ (h.resends_le slot)).trans_lt hn
    exact ⟨_, Word.fitHalf_eq_ok_iff.mpr ⟨hresends, rfl⟩⟩
  split
  · refine HasRoom.askPromises { h with stop_le := hstop, resends_le := fun t => ?_ } hb
    rw [resendsIn, hrecord]
    exact h.resends_le t
  · have hrecounted := recounted_foldl p hlow hrecord
    rw [List.foldl_map]
    refine HasRoom.leaves ?_ _
    refine { h.succ with stop_le := ?_, resends_le := fun t => ?_ }
    · refine Window.stop_foldl_modify_le Prod.fst _ hstop ?_
      rintro ⟨slot, value⟩ hmem
      have hlt := (mem_unanswered.mp hmem).2.1
      dsimp only
      omega
    · have hresends := h.resends_le t
      rw [hrecounted.resendsIn_eq]
      split <;> omega

/-! ### Steps -/

/-- **A step needs no more room than there is**, and there is room for the next one, if no promise makes
the proposer find too many holes. -/
theorem HasRoom.act (h : HasRoom b n p) (hb : b + n < Word.top) (hn : n + 1 < Word.halfSize)
    {x : Input} (hx : x.Within b) (hroom : x.delivered + p.alpha < Word.top)
    (hfew : ∀ m, x = .promise m → ¬ p.TooManyHoles m) : Leaves b (n + 1) (p.act x) := by
  have hb' : b ≤ Word.top := (Nat.le_add_right b n).trans hb.le
  cases x with
  | trust leader =>
    have htrust : Leaves b (n + 1) (p.trust leader) := by
      unfold Proposer.trust
      dsimp only
      split
      · refine HasRoom.leaves ?_ []
        exact { h.succ with slot_lt := fun _ hr => nomatch hr }
      split
      · refine HasRoom.leaves ?_ []
        exact { h.succ with pipeline := h.pipeline }
      · exact HasRoom.askPromises { h with pipeline := h.pipeline } hb
    exact htrust.bind fun _ _ => ⟨_, rfl⟩
  | promise m => exact ((h.succ.promise hb' hx).1 (hfew m rfl)).bind fun _ _ => ⟨_, rfl⟩
  | submit value =>
    have hsubmit : Leaves b (n + 1) (p.submit value) := by
      unfold Proposer.submit
      split
      · exact h.succ.leaves _
      · have hqueued : HasRoom b (n + 1) { p with queue := p.queue ++ [value] } :=
          { h.succ with pipeline := h.pipeline }
        exact hqueued.fill.bind fun _ _ => ⟨_, rfl⟩
    exact hsubmit.bind fun _ result => by cases result <;> exact ⟨_, rfl⟩
  | hear round =>
    have hheard : HasRoom b (n + 1) (p.hear round) :=
      { h.succ with topCounter_le := max_le h.topCounter_le (Nat.le_of_lt hx) }
    exact hheard.leaves _
  | noteDelivered adu decided =>
    have hnoted : Leaves b (n + 1) (p.noteDelivered adu decided) := h.succ.noteDelivered hroom decided
    exact hnoted.bind fun _ _ => ⟨_, rfl⟩
  | retry =>
    have hretry : Leaves b (n + 1) p.retry := by
      unfold Proposer.retry
      split
      · exact h.askPromises hb
      · exact h.succ.leaves []
    exact hretry.bind fun _ _ => ⟨_, rfl⟩
  | checkProgress => exact (h.checkProgress hb hn).bind fun _ _ => ⟨_, rfl⟩
  | setEpochs epochs =>
    have htold : HasRoom b (n + 1) (p.setEpochs epochs) := { h.succ with pipeline := h.pipeline }
    exact htold.leaves _

/-- A promise that makes the proposer find too many holes makes it fail. -/
theorem HasRoom.act_eq_error (h : HasRoom b n p) (hb : b ≤ Word.top) {m : Promise}
    (hm : Input.Within b (.promise m)) (hmany : p.TooManyHoles m) :
    p.act (.promise m) = .error .addition := by
  rw [Proposer.act, (h.promise hb hm).2 hmany]
  rfl

/-- A leader that hears of deliveries fails if the end of its pipeline then fits in no word. -/
theorem noteDelivered_eq_error (hleads : p.isLeader = true) (hphase : p.phase = .two) {adu : Nat}
    (habove : p.adu < adu) (hover : Word.size ≤ adu + p.alpha) (decided : List (Nat × Value)) :
    p.noteDelivered adu decided = .error .addition := by
  have hfill : (p.advanced adu decided).fill = .error .addition := by
    have hleads' : (p.isLeader && p.phase == .two) = true := by simp [hleads, hphase]
    have hlast : Word.fit (adu + p.alpha) = .error .addition := if_neg (Nat.not_lt.mpr hover)
    refine (if_pos hleads').trans ?_
    show Word.fit (adu + p.alpha) >>= _ = _
    rw [hlast]
    rfl
  refine (if_neg (Nat.not_le.mpr habove)).trans ?_
  dsimp only
  rcases Nat.lt_or_ge (adu + 1) Word.size with hlt | hge
  · have hbelow : Word.fit (adu + 1) = .ok (adu + 1) := if_pos hlt
    rw [hbelow]
    exact hfill
  · have hbelow : Word.fit (adu + 1) = .error .addition := if_neg (Nat.not_lt.mpr hge)
    rw [hbelow]
    rfl

theorem mem_reports_of_recordPromise {m : Promise} {r : Report}
    (hr : r ∈ (recordPromise p.promises m).flatMap Promise.reports) : r ∈ p.reports ∨ r ∈ m.reports := by
  obtain ⟨m', hm', hrm'⟩ := List.mem_flatMap.mp hr
  rcases mem_recordPromise hm' with rfl | hm'
  · exact Or.inr hrm'
  · exact Or.inl (List.mem_flatMap.mpr ⟨m', hm', hrm'⟩)

/-- A proposer does not forget deliveries, and it knows of no votes but those that were reported to it. -/
theorem knows_of_act {x : Input} {o : Output} (hlow : p.window.low = p.adu + 1)
    (h : p.act x = .ok (p', o)) : p.adu ≤ p'.adu ∧
      ∀ r ∈ p'.reports, r ∈ p.reports ∨ ∃ m, x = .promise m ∧ r ∈ m.reports := by
  cases acts_of_act hlow h with
  | quiet same =>
    refine ⟨same.adu_eq.ge, fun r hr => Or.inl ?_⟩
    unfold reports at hr
    rcases same.phase_cases with ⟨-, hnone⟩ | ⟨-, heq⟩
    · rw [hnone] at hr
      cases hr
    · rwa [heq] at hr
  | ask _ asks =>
    refine ⟨asks.adu_eq.ge, fun r hr => ?_⟩
    rw [reports, asks.promises_eq] at hr
    cases hr
  | @gather m => exact ⟨le_rfl, fun r hr => (mem_reports_of_recordPromise hr).imp_right fun hr => ⟨m, rfl, hr⟩⟩
  | @fill _ q _ _ _ readies fills =>
    have hreports : p'.reports = q.reports := by
      rcases fill_cases fills with ⟨-, rfl, -⟩ | ⟨-, -, _, _, -, -, rfl, -⟩
      · rfl
      · rfl
    rw [(adu_of_fill fills).1, hreports]
    cases readies with
    | @begins m => exact ⟨le_rfl, fun r hr => (mem_reports_of_recordPromise hr).imp_right fun hr => ⟨m, rfl, hr⟩⟩
    | submits => exact ⟨le_rfl, fun r hr => Or.inl hr⟩
    | advances _ _ above => exact ⟨above.le, fun r hr => Or.inl hr⟩
  | resend => exact ⟨le_rfl, fun r hr => Or.inl hr⟩

/-- What a proposer is told was delivered it knows. -/
theorem delivered_le_of_act {x : Input} {o : Output} (h : p.act x = .ok (p', o)) :
    x.delivered ≤ p'.adu := by
  cases x with
  | noteDelivered adu decided =>
    obtain ⟨⟨p₁, outbound⟩, hnote, hret⟩ := Checked.bind_eq_ok_iff.mp h
    cases hret
    rcases noteDelivered_cases hnote with ⟨hle, rfl, -⟩ | ⟨-, -, hfill⟩
    · exact hle
    · exact (adu_of_fill hfill).1.ge
  | _ => exact Nat.zero_le _

section Runs

variable {c : ReplicaSettings} {epochs : EpochVector} {past : Past} {xs rest : List Input}

/-- While a proposer is told of votes for fewer than `2 ^ 31` slots beyond the delivered ones, it knows of
no others. -/
theorem near_of_runs (h : Runs act (Replica.start c.roles c.replica epochs).proposer p past)
    (hnear : ReportsNear 0 (past.map Turn.input ++ rest)) :
    (∀ r ∈ p.reports, r.slot < p.adu + Word.countSize) ∧ ∃ adu ≤ p.adu, ReportsNear adu rest := by
  induction h generalizing rest with
  | nil => exact ⟨fun _ hr => (List.not_mem_nil hr).elim, 0, Nat.zero_le _, hnear⟩
  | @step p p' x o past run act_eq ih =>
    rw [List.map_append, List.append_assoc] at hnear
    obtain ⟨hbelow, adu, hadu, hx, hrest⟩ := ih hnear
    obtain ⟨hmono, hreports⟩ := knows_of_act (follows_of_runs run).consistent.low_eq act_eq
    refine ⟨fun r hr => ?_, _, max_le (hadu.trans hmono) (delivered_le_of_act act_eq), hrest⟩
    rcases hreports r hr with hr | ⟨m, rfl, hr⟩
    · have := hbelow r hr
      omega
    · have := hx r hr
      omega

/-- Reports that are near leave a proposer with few holes. -/
theorem not_tooManyHoles_of_near (h : Runs act (Replica.start c.roles c.replica epochs).proposer p past)
    {m : Promise} (hnear : ReportsNear 0 (past.map Turn.input ++ .promise m :: rest)) :
    ¬ p.TooManyHoles m := by
  rintro ⟨-, -, -, -, hholes⟩
  have hpos : 0 < Word.countSize := by decide
  obtain ⟨hbelow, adu, hadu, hm, -⟩ := near_of_runs h hnear
  have hlast : lastReported { p with promises := recordPromise p.promises m } < p.adu + Word.countSize := by
    rcases lastReported_cases { p with promises := recordPromise p.promises m } with heq | ⟨r, hr, heq⟩
    · rw [heq]
      exact Nat.lt_add_of_pos_right hpos
    · rw [← heq]
      rcases mem_reports_of_recordPromise hr with hr | hr
      · exact hbelow r hr
      · exact (hm r hr).trans_le (Nat.add_le_add_right hadu _)
  have hle := hholes.trans (holesFound_le _)
  dsimp only at hle
  omega

/-- As long as the deliveries leave room for its pipeline, a proposer has room. -/
theorem hasRoom_of_runs (h : Runs act (Replica.start c.roles c.replica epochs).proposer p past)
    (hlength : past.length < 2 ^ 31) (hwithin : ∀ t ∈ past, t.input.Within (2 ^ 62))
    (halpha : c.alpha < Word.top) (hroom : ∀ t ∈ past, t.input.delivered + c.alpha < Word.top) :
    HasRoom (2 ^ 62) past.length p ∧ p.alpha = c.alpha := by
  induction h with
  | nil => exact ⟨hasRoom_start c.roles c.replica epochs _ halpha, rfl⟩
  | @step p p' x o past run act_eq ih =>
    rw [List.length_append, List.length_singleton] at hlength ⊢
    obtain ⟨hwithin, hx⟩ := List.forall_mem_append.mp hwithin
    obtain ⟨hroom, hdelivered⟩ := List.forall_mem_append.mp hroom
    rw [List.forall_mem_singleton] at hx hdelivered
    obtain ⟨hp, heq⟩ := ih (by omega) hwithin hroom
    have hfew : ∀ m, x = .promise m → ¬ p.TooManyHoles m := by
      rintro m rfl hmany
      rw [hp.act_eq_error (by decide) hx hmany] at act_eq
      cases act_eq
    obtain ⟨p₁, o₁, hact, hp₁⟩ := hp.act (by unfold Word.top; omega) (by unfold Word.halfSize; omega)
      hx (heq ▸ hdelivered) hfew
    cases hact.symm.trans act_eq
    exact ⟨hp₁, (setUp_of_act act_eq).1.alpha_eq.trans heq⟩

/-- **A proposer does not run out of room**, if the deliveries that it hears of leave room for its pipeline.
Let there be fewer than `2 ^ 31` inputs of any kind, in any order, that are about slots and counters below
`2 ^ 62`. One after the other, the proposer takes each of them, unless it is the promise that makes it find
`2 ^ 31` holes or more. So it takes them all if votes are reported for fewer than `2 ^ 31` slots beyond the
delivered ones. What is assumed of deliveries is needed: a leader that hears of deliveries that leave no
room fails. -/
theorem takes_all (c : ReplicaSettings) (epochs : EpochVector) {xs : List Input}
    (hlength : xs.length < 2 ^ 31) (hwithin : ∀ x ∈ xs, x.Within (2 ^ 62))
    (hroom : ∀ x ∈ xs, x.delivered + c.alpha < Word.top) :
    (∀ p past x rest, Runs act (Replica.start c.roles c.replica epochs).proposer p past →
      past.map Turn.input ++ x :: rest = xs →
      ((∃ p' o, p.act x = .ok (p', o)) ↔ ∀ m, x = .promise m → ¬ p.TooManyHoles m)) ∧
    (ReportsNear 0 xs → ∃ p past, Runs act (Replica.start c.roles c.replica epochs).proposer p past ∧
      past.map Turn.input = xs) ∧
    ∀ (p : Proposer) (adu : Nat) (decided : List (Nat × Value)), p.isLeader = true →
      p.phase = .two → p.adu < adu → Word.size ≤ adu + p.alpha →
      p.act (.noteDelivered adu decided) = .error .addition := by
  have hnext : ∀ p past x rest, Runs act (Replica.start c.roles c.replica epochs).proposer p past →
      past.map Turn.input ++ x :: rest = xs →
      ((∃ p' o, p.act x = .ok (p', o)) ↔ ∀ m, x = .promise m → ¬ p.TooManyHoles m) := by
    rintro p past x rest hrun rfl
    rw [List.length_append, List.length_map, List.length_cons] at hlength
    have hmem : ∀ t ∈ past, t.input ∈ past.map Turn.input ++ x :: rest := fun t ht =>
      List.mem_append_left _ (List.mem_map_of_mem ht)
    have hx := hwithin x (by simp)
    have hdelivered := hroom x (by simp)
    obtain ⟨hp, halpha⟩ := hasRoom_of_runs hrun (by omega) (fun t ht => hwithin _ (hmem t ht))
      (by omega) fun t ht => hroom _ (hmem t ht)
    constructor
    · rintro ⟨p', o, hact⟩ m rfl hmany
      rw [hp.act_eq_error (by decide) hx hmany] at hact
      cases hact
    · intro hfew
      obtain ⟨p', o, hact, -⟩ := hp.act (by unfold Word.top; omega) (by unfold Word.halfSize; omega)
        hx (halpha ▸ hdelivered) hfew
      exact ⟨p', o, hact⟩
  refine ⟨hnext, fun hnear => Runs.exists_of_next fun p past x rest hrun hxs => ?_, ?_⟩
  · refine (hnext p past x rest hrun hxs).mpr ?_
    rintro m rfl
    exact not_tooManyHoles_of_near hrun (hxs ▸ hnear)
  · intro p adu decided hleads hphase habove hover
    simp only [act, noteDelivered_eq_error hleads hphase habove hover decided]
    rfl

end Runs

/-- The pipeline ends one slot short of the greatest word once slot 4 is delivered. A leader takes over a
reported vote, sends it again, loses the lead and gets it back with a higher round, in which a value of a
client is displaced twice: by a reported vote and by a delivery. -/
theorem takes_all_of_long_pipeline : ∃ (c : ReplicaSettings) (xs : List Input) (p : Proposer)
    (past : List (Turn Proposer Input Output)),
    c.validate = .ok () ∧ c.alpha = 2 ^ 64 - 6 ∧ xs.length < 2 ^ 31 ∧
    (∀ x ∈ xs, x.Within (2 ^ 62)) ∧ (∀ x ∈ xs, x.delivered + c.alpha < Word.top) ∧ ReportsNear 0 xs ∧
    Runs act (Replica.start c.roles c.replica (.zeros 1)).proposer p past ∧
    past.map Turn.input = xs ∧
    ((Runs.replay act (Replica.start c.roles c.replica (.zeros 1)).proposer [] xs).map fun r =>
      (r.1.adu, r.1.nextSlot, r.1.round, r.2.map fun t => t.output.outbound.length)) =
      some (4, 6, ⟨10, 0⟩, [1, 1, 1, 2, 0, 0, 1, 1, 3, 1]) := by
  let v (n : UInt8) : Value := .appBatch [n]
  let c : ReplicaSettings := { replicas := 1, alpha := 2 ^ 64 - 6, retention := 2 ^ 64 - 6 }
  let xs : List Input := [.trust 0, .promise ⟨0, ⟨1, 0⟩, [⟨1, ⟨1, 0⟩, v 65⟩], .zeros 1⟩, .submit (v 66),
    .checkProgress, .hear ⟨8, 3⟩, .trust 1, .trust 0, .retry,
    .promise ⟨0, ⟨10, 0⟩, [⟨2, ⟨8, 3⟩, v 67⟩], .zeros 1⟩,
    .noteDelivered 4 [(1, v 65), (2, v 67), (3, v 68), (4, v 69)]]
  have hlength : xs.length < 2 ^ 31 := by decide
  have hwithin : ∀ x ∈ xs, x.Within (2 ^ 62) := by decide
  have hroom : ∀ x ∈ xs, x.delivered + c.alpha < Word.top := by decide
  have hnear : ReportsNear 0 xs := by decide
  obtain ⟨-, hall, -⟩ := takes_all c (.zeros 1) hlength hwithin hroom
  obtain ⟨p, past, hrun, hpast⟩ := hall hnear
  exact ⟨c, xs, p, past, rfl, rfl, hlength, hwithin, hroom, hnear, hrun, hpast, by decide +kernel⟩

/-- **Valid settings can make a proposer fail.** With the greatest word for `alpha`, a replica that leads
alone proposes, hears that slot 1 was delivered, and fails. With an `alpha` of one, it fails if the votes that
are reported to it begin with slot `2 ^ 31 + 1`. -/
theorem valid_settings_may_overflow :
    (∃ (c : ReplicaSettings) (p : Proposer) (past : Past),
      c.validate = .ok () ∧ Runs act (Replica.ofSettings c).proposer p past ∧
      past.map Turn.input = [.trust 0, .promise ⟨0, ⟨1, 0⟩, [], .zeros 1⟩] ∧
      (∀ t ∈ past, t.input.Within (2 ^ 62)) ∧ (Input.noteDelivered 1 []).Within (2 ^ 62) ∧
      p.act (.noteDelivered 1 []) = .error .addition) ∧
    ∃ (c : ReplicaSettings) (p : Proposer) (past : Past) (m : Promise),
      c.validate = .ok () ∧ c.alpha = 1 ∧ Runs act (Replica.ofSettings c).proposer p past ∧
      past.map Turn.input = [.trust 0] ∧
      m = ⟨0, ⟨1, 0⟩, [⟨2 ^ 31 + 1, ⟨1, 0⟩, .noop⟩], .zeros 1⟩ ∧ (Input.promise m).Within (2 ^ 62) ∧
      p.act (.promise m) = .error .addition := by
  constructor
  · let c : ReplicaSettings := { replicas := 1, alpha := Word.top, retention := Word.top }
    obtain ⟨p, past, hrun, hinputs, hwithin, hleads, hphase, hadu, halpha⟩ := Runs.exists_of_replay act
      (Replica.ofSettings c).proposer [.trust 0, .promise ⟨0, ⟨1, 0⟩, [], .zeros 1⟩]
      (fun p past => past.map Turn.input = [.trust 0, .promise ⟨0, ⟨1, 0⟩, [], .zeros 1⟩] ∧
        (∀ t ∈ past, t.input.Within (2 ^ 62)) ∧ p.isLeader = true ∧ p.phase = .two ∧ p.adu < 1 ∧
        Word.size ≤ 1 + p.alpha) (by decide +kernel)
    have hfails := noteDelivered_eq_error hleads hphase hadu halpha []
    exact ⟨c, p, past, rfl, hrun, hinputs, hwithin, by decide, by rw [act, hfails]; rfl⟩
  · let c : ReplicaSettings := { replicas := 1, alpha := 1, retention := 1 }
    let m : Promise := ⟨0, ⟨1, 0⟩, [⟨2 ^ 31 + 1, ⟨1, 0⟩, .noop⟩], .zeros 1⟩
    have hm : (Input.promise m).Within (2 ^ 62) := by decide
    obtain ⟨p, past, hrun, hinputs, hwithin, hroom, hleads, hphase, hround, hquorum, hadu, hwindow,
      hlow, hreports, hlast⟩ := Runs.exists_of_replay act (Replica.ofSettings c).proposer [.trust 0]
      (fun p past => past.map Turn.input = [.trust 0] ∧ (∀ t ∈ past, t.input.Within (2 ^ 62)) ∧
        (∀ t ∈ past, t.input.delivered + c.alpha < Word.top) ∧
        p.isLeader = true ∧ p.phase = .one ∧ m.round = p.round ∧
        p.mode.quorumOfPromises (recordPromise p.promises m) p.quorum ≠ none ∧
        p.adu = 0 ∧ p.window = {} ∧ p.window.low = p.adu + 1 ∧
        reports { p with promises := recordPromise p.promises m } = m.reports ∧
        lastReported { p with promises := recordPromise p.promises m } = 2 ^ 31 + 1) (by decide +kernel)
    have hlength : past.length < 2 ^ 31 := by
      rw [← List.length_map Turn.input, hinputs]
      decide
    have hmany : p.TooManyHoles m := by
      refine ⟨hleads, hphase, hround, hquorum, le_holesFound hlow ?_ ?_ fun t _ _ => ?_⟩
      · rw [hlast, hadu]
        decide
      · rw [hreports, hadu]
        decide
      · show valueIn p.window t = none
        rw [hwindow, valueIn, Window.get?_empty]
        rfl
    obtain ⟨hp, -⟩ := hasRoom_of_runs (c := c) hrun hlength hwithin (by decide) hroom
    exact ⟨c, p, past, m, rfl, rfl, hrun, hinputs, rfl, hm, hp.act_eq_error (by decide) hm hmany⟩

end Proposer

end ReplicatedLog
