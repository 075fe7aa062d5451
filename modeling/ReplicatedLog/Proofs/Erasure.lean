import ReplicatedLog.Proofs.Leading
import ReplicatedLog.Proofs.Learning

/-!
# Roles without their mode

A role in any mode becomes one in plain mode when its mode is forgotten (`Acceptor.plainly`,
`Proposer.plainly`, `Learner.plainly`), and with it, in the tallies of a learner, whether a vote
disagreed with its view of the membership. The mode is asked in three places only: when an acceptor
admits a proposal, when a proposer looks for a quorum of promises, and when a learner looks for one of
votes. So every other step does the same with and without the mode, and these three do if the mode
decides as plain mode does.

If every step of a role does the same with and without something, the whole run does (`Erases.run`).
-/

namespace ReplicatedLog

/-! ### What no step depends on -/

section Erases

variable {σ ι ο : Type} {act : σ → ι → Checked (σ × ο)} {erase : σ → σ} {Fine : ι → Prop} {start s : σ}
  {past : List (Turn σ ι ο)} {xs : List ι}

/-- The state of a role after inputs, one after the other, if no step fails. -/
def after (act : σ → ι → Checked (σ × ο)) : σ → List ι → Checked σ
  | s, [] => .ok s
  | s, x :: xs => do
    let (s, _) ← act s x
    after act s xs

/-- What comes of a step, with a change of the state. -/
def onState {α : Type} (f : σ → σ) (r : σ × α) : σ × α := (f r.1, r.2)

/-- In runs from `start` with inputs that are `Fine`, no step depends on what `erase` takes away from
the state. -/
def Erases (act : σ → ι → Checked (σ × ο)) (erase : σ → σ) (Fine : ι → Prop) (start : σ) : Prop :=
  ∀ s past x, Runs act start s past → (∀ t ∈ past, Fine t.input) → Fine x →
    act (erase s) x = onState erase <$> act s x

/-- **No run depends on it** if no step does: without it, a role gives the same answers to inputs, and
comes to the same state without it. -/
theorem Erases.run (h : Erases act erase Fine start) (hrun : Runs act start s past)
    (hpast : ∀ t ∈ past, Fine t.input) (hxs : ∀ x ∈ xs, Fine x) :
    answers act (erase s) xs = answers act s xs ∧ after act (erase s) xs = erase <$> after act s xs := by
  induction xs generalizing s past with
  | nil => exact ⟨rfl, rfl⟩
  | cons x xs ih =>
    obtain ⟨hx, hxs⟩ := List.forall_mem_cons.mp hxs
    have hstep := h s past x hrun hpast hx
    unfold answers after
    rw [hstep]
    cases hact : act s x with
    | error e => exact ⟨rfl, rfl⟩
    | ok r =>
      obtain ⟨s', o⟩ := r
      have hpast' : ∀ t ∈ past ++ [⟨s, x, s', o⟩], Fine t.input :=
        List.forall_mem_append.mpr ⟨hpast, List.forall_mem_singleton.mpr hx⟩
      obtain ⟨hanswers, hafter⟩ := ih (hrun.step hact) hpast' hxs
      exact ⟨congrArg (Except.ok o :: ·) hanswers, hafter⟩

/-- A computation in steps does not depend on it if neither part does. -/
theorem erase_bind {α β : Type} {c : Checked (σ × α)} {k : σ × α → Checked (σ × β)}
    (h : ∀ s a, k (erase s, a) = onState erase <$> k (s, a)) :
    (onState erase <$> c) >>= k = onState erase <$> (c >>= k) := by
  cases c with
  | error e => rfl
  | ok r => exact h r.1 r.2

end Erases

/-- Changing what each computation along a list gives is changing what they give together. -/
theorem mapM_map {α β γ : Type} (f : α → Checked β) (g : β → γ) (xs : List α) :
    xs.mapM (fun x => g <$> f x) = List.map g <$> xs.mapM f := by
  induction xs with
  | nil => rfl
  | cons x xs ih =>
    rw [List.mapM_cons, List.mapM_cons, ih, map_bind, bind_map_left]
    congr 1
    funext y
    rw [map_bind, bind_map_left]
    rfl

/-! ### Windows -/

namespace Window

variable {α β : Type} {f : α → β}

/-- The window with every record changed. -/
def map (f : α → β) (w : Window α) : Window β := ⟨w.low, w.entries.map f⟩

@[simp]
theorem low_map (w : Window α) : (w.map f).low = w.low := rfl

@[simp]
theorem highest_map (w : Window α) : (w.map f).highest = w.highest := by
  simp [highest, map]

@[simp]
theorem map_empty : ({} : Window α).map f = {} := by
  simp [map]

@[simp]
theorem get?_map (w : Window α) (slot : Nat) : (w.map f).get? slot = (w.get? slot).map f := by
  unfold get?
  rw [low_map]
  split
  · rfl
  · simp [map]

theorem map_raise (w : Window α) (below : Nat) : (w.raise below).map f = (w.map f).raise below := by
  unfold raise
  rw [low_map]
  split
  · rfl
  · simp [map]

theorem entriesFrom_map (w : Window α) (slot : Nat) :
    (w.map f).entriesFrom slot = (w.entriesFrom slot).map f := by
  unfold entriesFrom
  rw [low_map]
  split
  · rfl
  · simp [map]

theorem range_map (w : Window α) (first last : Nat) :
    (w.map f).range first last = List.map (fun e => (e.1, f e.2)) <$> w.range first last := by
  unfold range
  simp only [map_bind, map_pure, low_map, get?_map]
  rw [show (w.map f).entries.size = w.entries.size by simp [map]]
  congr 1
  funext stop
  congr 1
  rw [List.map_filterMap]
  congr 1
  funext slot
  cases w.get? slot <;> rfl

variable [Inhabited α] [Inhabited β]

theorem map_touch (hf : f default = default) (w : Window α) (slot : Nat) :
    (w.touch slot).map f = (w.map f).touch slot := by
  unfold touch
  rw [low_map]
  split
  · rfl
  · simp [map, hf]

theorem map_modify (hf : f default = default) {g : α → α} {g' : β → β} (hg : ∀ a, f (g a) = g' (f a))
    (w : Window α) (slot : Nat) : (w.modify slot g).map f = (w.map f).modify slot g' := by
  unfold modify
  rw [low_map]
  split
  · rfl
  · rw [← map_touch hf]
    simp only [map, mk.injEq, true_and]
    apply Array.ext_getElem?
    intro i
    rw [Array.getElem?_modify, Array.getElem?_map, Array.getElem?_map, Array.getElem?_modify]
    split
    · cases (w.touch slot).entries[i]? <;> simp [hg]
    · rfl

end Window

/-! ### Acceptors -/

namespace Acceptor

variable {a : Acceptor}

/-- The acceptor without its mode. -/
def plainly (a : Acceptor) : Acceptor := { a with mode := .plain }

theorem prepare_plainly (a : Acceptor) (m : Prepare) :
    a.plainly.prepare m = onState plainly <$> a.prepare m := by
  by_cases hround : m.round ≤ a.round
  · have hround' : m.round ≤ a.plainly.round := hround
    rw [prepare, prepare, if_pos hround, if_pos hround']
    rfl
  · have hround' : ¬ m.round ≤ a.plainly.round := hround
    rw [prepare, prepare, if_neg hround, if_neg hround', map_bind]
    rfl

/-- The mode makes no difference to a vote if it admits the proposal. -/
theorem accept_plainly {m : Accept} (hadmits : a.mode.admits a.id a.epochs m = true) :
    a.plainly.accept m = onState plainly (a.accept m) := by
  have hadmits' : a.plainly.mode.admits a.plainly.id a.plainly.epochs m = true := rfl
  rw [accept, accept, hadmits, hadmits', Bool.not_true, if_neg Bool.false_ne_true,
    if_neg Bool.false_ne_true]
  by_cases hround : m.round < a.round
  · have hround' : m.round < a.plainly.round := hround
    rw [if_pos hround, if_pos hround']
    rfl
  · have hround' : ¬ m.round < a.plainly.round := hround
    rw [if_neg hround, if_neg hround']
    dsimp only [retainedFor, plainly]
    split
    · rfl
    split <;> rfl

theorem votesAbove_plainly (a : Acceptor) (slot : Nat) :
    a.plainly.votesAbove slot = a.votesAbove slot := rfl

/-- The only step that asks for the mode is that which admits a proposal. -/
theorem act_plainly {x : Input}
    (hadmits : ∀ m, x = .accept m → a.mode.admits a.id a.epochs m = true) :
    a.plainly.act x = onState plainly <$> a.act x := by
  cases x with
  | prepare m =>
    rw [act, act, prepare_plainly]
    exact erase_bind fun _ _ => rfl
  | accept m =>
    rw [act, act, accept_plainly (hadmits m rfl)]
    rfl
  | setEpochs epochs => rfl
  | takeOver s => rfl
  | raiseLow slot => rfl

end Acceptor

/-! ### Proposers -/

namespace Proposer

variable {p : Proposer}

/-- The proposer without its mode. -/
def plainly (p : Proposer) : Proposer := { p with mode := .plain }

theorem askPromises_plainly (p : Proposer) :
    p.plainly.askPromises = onState plainly <$> p.askPromises := by
  unfold askPromises
  simp only [map_bind]
  rfl

theorem fill_plainly (p : Proposer) : p.plainly.fill = onState plainly <$> p.fill := by
  unfold fill
  rw [apply_ite (onState plainly <$> ·)]
  simp only [map_bind]
  rfl

theorem ownValues_plainly (p : Proposer) : p.plainly.ownValues = p.ownValues := rfl

theorem beginProposing_plainly (p : Proposer) :
    p.plainly.beginProposing = onState plainly <$> p.beginProposing := by
  unfold beginProposing
  simp only [map_bind, ownValues_plainly, ← fill_plainly]
  rfl

theorem trust_plainly (p : Proposer) (leader : Nat) :
    p.plainly.trust leader = onState plainly <$> p.trust leader := by
  unfold trust
  dsimp only
  rw [apply_ite (onState plainly <$> ·), apply_ite (onState plainly <$> ·), ← askPromises_plainly]
  rfl

theorem retry_plainly (p : Proposer) : p.plainly.retry = onState plainly <$> p.retry := by
  unfold retry
  rw [apply_ite (onState plainly <$> ·), ← askPromises_plainly]
  rfl

theorem submit_plainly (p : Proposer) (value : Value) :
    p.plainly.submit value = onState plainly <$> p.submit value := by
  unfold submit
  rw [apply_ite (onState plainly <$> ·), ← erase_bind fun _ _ => rfl, ← fill_plainly]
  rfl

theorem noteDelivered_plainly (p : Proposer) (adu : Nat) (decided : List (Nat × Value)) :
    p.plainly.noteDelivered adu decided = onState plainly <$> p.noteDelivered adu decided := by
  unfold noteDelivered
  rw [apply_ite (onState plainly <$> ·), map_bind]
  simp only [← fill_plainly]
  rfl

theorem checkProgress_plainly (p : Proposer) :
    p.plainly.checkProgress = onState plainly <$> p.checkProgress := by
  unfold checkProgress
  simp only [apply_ite (onState plainly <$> ·), map_bind, ← askPromises_plainly]
  rfl

/-- The mode makes no difference to a promise if it finds a quorum as soon as there are enough
promises. -/
theorem promise_plainly {m : Promise}
    (henough : p.phase = .one → p.quorum ≤ (recordPromise p.promises m).length →
      p.mode.quorumOfPromises (recordPromise p.promises m) p.quorum ≠ none) :
    p.plainly.promise m = onState plainly <$> p.promise m := by
  obtain ⟨topCounter, hheard⟩ := hear_reports (p.hear m.round) m.reports
  have hheard' : m.reports.foldl (fun p r => p.hear r.round) (p.plainly.hear m.round) =
      ({ p with topCounter } : Proposer).plainly := by
    refine (List.foldl_hom plainly fun _ _ => rfl).trans (congrArg plainly hheard)
  unfold promise
  rw [hheard, hheard']
  dsimp only [hear, plainly]
  rw [apply_ite (onState plainly <$> ·)]
  refine ite_congr rfl (fun _ => rfl) fun hcounts => ?_
  have hphase : p.phase = .one := by
    simp only [Bool.or_eq_true, bne_iff_ne, not_or, not_not] at hcounts
    exact hcounts.1.2
  by_cases hle : p.quorum ≤ (recordPromise p.promises m).length
  · obtain ⟨positions, hpositions⟩ := Option.ne_none_iff_exists'.mp (henough hphase hle)
    rw [hpositions, Mode.quorumOfPromises, if_pos hle]
    dsimp only
    rw [← beginProposing_plainly]
    rfl
  · have hnone : ∀ mode : Mode, mode.quorumOfPromises (recordPromise p.promises m) p.quorum = none :=
      fun _ => if_neg hle
    rw [hnone, hnone]
    rfl

/-- The only step that asks for the mode is that which looks for a quorum of promises. -/
theorem act_plainly {x : Input} (henough : ∀ m, x = .promise m → p.phase = .one →
      p.quorum ≤ (recordPromise p.promises m).length →
      p.mode.quorumOfPromises (recordPromise p.promises m) p.quorum ≠ none) :
    p.plainly.act x = onState plainly <$> p.act x := by
  cases x with
  | trust leader =>
    rw [act, act, trust_plainly]
    exact erase_bind fun _ _ => rfl
  | promise m =>
    rw [act, act, promise_plainly (henough m rfl)]
    exact erase_bind fun _ _ => rfl
  | submit value =>
    rw [act, act, submit_plainly]
    exact erase_bind fun _ result => by cases result <;> rfl
  | hear round => rfl
  | noteDelivered adu decided =>
    rw [act, act, noteDelivered_plainly]
    exact erase_bind fun _ _ => rfl
  | retry =>
    rw [act, act, retry_plainly]
    exact erase_bind fun _ _ => rfl
  | checkProgress =>
    rw [act, act, checkProgress_plainly]
    exact erase_bind fun _ _ => rfl
  | setEpochs epochs => rfl

end Proposer

/-! ### Learners -/

namespace Tally

variable {t : Tally}

/-- The tally without the note that a vote disagreed with the learner's view of the membership. -/
def plainly (t : Tally) : Tally := { t with disputed := false }

theorem plainly_default : plainly default = default := rfl

/-- Whether a vote counts does not depend on the mode. -/
theorem count_plainly (t : Tally) (mode : Mode) (own : EpochVector) (m : Learn) :
    t.plainly.count .plain own m = (t.count mode own m).map plainly := by
  unfold count
  rw [apply_ite (Option.map plainly)]
  refine ite_congr rfl (fun _ => rfl) fun _ => ?_
  have hjoined : (if t.plainly.round < m.round then { t.plainly with round := m.round, votes := [] }
      else t.plainly) = (if t.round < m.round then { t with round := m.round, votes := [] }
      else t).plainly :=
    (apply_ite plainly (t.round < m.round) { t with round := m.round, votes := [] } t).symm
  rw [hjoined]
  generalize (if t.round < m.round then { t with round := m.round, votes := [] } else t) = t'
  dsimp only
  rw [apply_ite (Option.map plainly), apply_ite (Option.map plainly)]
  rfl

end Tally

namespace Learner

variable {l : Learner}

/-- The learner without its mode. -/
def plainly (l : Learner) : Learner := { l with mode := .plain, window := l.window.map Tally.plainly }

theorem ready_plainly (ts : List Tally) : ready (ts.map Tally.plainly) = ready ts := by
  induction ts with
  | nil => rfl
  | cons t ts ih =>
    rw [List.map_cons, ready, ready, ih]
    rfl

theorem mark_plainly (w : Window Tally) (marked : List (Nat × Value)) :
    mark (w.map Tally.plainly) marked = (mark w marked).map Tally.plainly := by
  refine List.foldl_hom (Window.map Tally.plainly) fun w (slot, _) => ?_
  refine (Window.map_modify Tally.plainly_default ?_ w slot).symm
  exact fun _ => rfl

theorem take_plainly (next : Nat) (w : Window Tally) (decided : List (Nat × Value)) :
    take next (w.map Tally.plainly) decided = (take next w decided).map Tally.plainly := by
  refine List.foldl_hom (Window.map Tally.plainly) fun w (slot, value) => ?_
  dsimp only
  rw [apply_ite (Window.map Tally.plainly)]
  refine ite_congr rfl (fun _ => rfl) fun _ => ?_
  refine (Window.map_modify Tally.plainly_default ?_ w slot).symm
  exact fun _ => rfl

theorem deliver_plainly (l : Learner) : l.plainly.deliver = onState plainly <$> l.deliver := by
  have hready : ready (l.plainly.window.entriesFrom l.plainly.next) =
      ready (l.window.entriesFrom l.next) := by
    rw [plainly, Window.entriesFrom_map, ready_plainly]
  unfold deliver
  rw [hready, show l.plainly.next = l.next from rfl, map_bind]
  dsimp only
  congr 1
  funext next
  generalize (List.range' l.next (ready (l.window.entriesFrom l.next)).length).zip
    (ready (l.window.entriesFrom l.next)) = delivered
  have hwindow : (if delivered.isEmpty then mark l.plainly.window delivered
      else (mark l.plainly.window delivered).raise (next - l.retention)) =
      (if delivered.isEmpty then mark l.window delivered
        else (mark l.window delivered).raise (next - l.retention)).map Tally.plainly := by
    rw [plainly, mark_plainly, apply_ite (Window.map Tally.plainly), Window.map_raise]
  exact congrArg (fun window => Except.ok ({ l.plainly with next, window }, delivered)) hwindow

theorem isLearned_plainly (l : Learner) (slot : Nat) : l.plainly.isLearned slot = l.isLearned slot := by
  unfold isLearned
  rw [plainly, Window.get?_map, Option.any_map]
  rfl

theorem missing_plainly (l : Learner) : l.plainly.missing = l.missing := by
  unfold missing
  have hlearned : l.plainly.isLearned = l.isLearned := funext l.isLearned_plainly
  rw [hlearned]
  dsimp only [plainly]
  rw [Window.highest_map, Window.range_map, bind_map_left]
  congr 1
  funext held
  have hlast : ((held.map fun e => (e.1, e.2.plainly)).filter fun e => e.2.learned.isSome).getLast? =
      (held.filter fun e => e.2.learned.isSome).getLast?.map fun e => (e.1, e.2.plainly) := by
    rw [List.filter_map, List.getLast?_map]
    rfl
  rw [hlast]
  cases (held.filter fun e => e.2.learned.isSome).getLast? <;> rfl

theorem askForMissing_plainly (l : Learner) :
    l.plainly.askForMissing = onState plainly <$> l.askForMissing := by
  unfold askForMissing
  rw [apply_ite (onState plainly <$> ·)]
  refine ite_congr rfl (fun _ => rfl) fun _ => ?_
  rw [missing_plainly, show l.plainly.leader = l.leader from rfl]
  cases l.leader with
  | none => rfl
  | some leader =>
    dsimp only
    rw [apply_ite (onState plainly <$> ·), map_bind]
    refine ite_congr rfl (fun _ => rfl) fun _ => ?_
    congr 1
    funext ranges
    rw [apply_ite (onState plainly <$> ·)]
    rfl

theorem answer_plainly (l : Learner) (m : CatchUpRequest) : l.plainly.answer m = l.answer m := by
  unfold answer
  have hheld : (m.ranges.mapM fun r => l.plainly.window.range r.1 r.2) =
      List.map (List.map fun e => (e.1, e.2.plainly)) <$>
        m.ranges.mapM fun r => l.window.range r.1 r.2 := by
    rw [plainly]
    dsimp only
    simp only [Window.range_map]
    exact mapM_map _ _ _
  rw [hheld, bind_map_left]
  congr 1
  funext held
  rw [← List.map_flatten, List.filterMap_map]
  rfl

theorem takeAnswer_plainly (l : Learner) (m : CatchUpResponse) :
    l.plainly.takeAnswer m = onState plainly <$> l.takeAnswer m := by
  have hstate : ({ l with
        catchingUp := false, window := take l.next l.window m.decided } : Learner).plainly =
      { l.plainly with
        catchingUp := false, window := take l.plainly.next l.plainly.window m.decided } := by
    rw [plainly, plainly, take_plainly]
  show _ = onState plainly <$> (deliver { l with
    catchingUp := false, window := take l.next l.window m.decided } >>= _)
  rw [← erase_bind, ← deliver_plainly, hstate]
  · rfl
  · exact fun _ _ => rfl

/-- Whether a vote counts for a slot that was touched does not depend on the mode. -/
theorem count_touch_plainly (l : Learner) (m : Learn) :
    (((l.plainly.window.touch m.slot).get? m.slot).bind fun t =>
      t.count l.plainly.mode l.plainly.epochs m) =
      (((l.window.touch m.slot).get? m.slot).bind fun t => t.count l.mode l.epochs m).map
        Tally.plainly := by
  rw [plainly, ← Window.map_touch Tally.plainly_default, Window.get?_map]
  cases (l.window.touch m.slot).get? m.slot with
  | none => rfl
  | some t => exact t.count_plainly l.mode l.epochs m

/-- Nor does it matter for what is put in the place of a tally. -/
theorem modify_touch_plainly (l : Learner) (slot : Nat) (t : Tally) :
    (l.plainly.window.touch slot).modify slot (fun _ => t.plainly) =
      ((l.window.touch slot).modify slot fun _ => t).map Tally.plainly := by
  rw [plainly, ← Window.map_touch Tally.plainly_default]
  refine (Window.map_modify Tally.plainly_default ?_ _ _).symm
  exact fun _ => rfl

/-- Plain mode settles a slot as soon as there are enough votes. -/
theorem settles_plainly {t : Tally} (henough : l.quorum ≤ t.votes.length →
      l.mode.settles t.votes l.quorum t.disputed = true) :
    l.plainly.mode.settles t.plainly.votes l.plainly.quorum t.plainly.disputed =
      l.mode.settles t.votes l.quorum t.disputed := by
  have hiff : l.mode.settles t.votes l.quorum t.disputed = true ↔ l.quorum ≤ t.votes.length :=
    ⟨Mode.le_length_of_settles, henough⟩
  rw [Bool.eq_iff_iff, hiff]
  exact (Bool.and_eq_true_iff.trans (and_iff_left rfl)).trans decide_eq_true_iff

/-- The mode makes no difference to a vote if it settles a slot as soon as there are enough votes. -/
theorem learn_plainly {m : Learn} (henough : ∀ t, (l.tally m.slot).count l.mode l.epochs m = some t →
      l.quorum ≤ t.votes.length → l.mode.settles t.votes l.quorum t.disputed = true) :
    l.plainly.learn m = onState plainly <$> l.learn m := by
  unfold learn
  dsimp only
  rw [apply_ite (onState plainly <$> ·)]
  refine ite_congr rfl (fun _ => rfl) fun _ => ?_
  rw [count_touch_plainly]
  cases hcounted : ((l.window.touch m.slot).get? m.slot).bind fun t => t.count l.mode l.epochs m with
  | none =>
    rw [plainly, ← Window.map_touch Tally.plainly_default]
    rfl
  | some t =>
    have hcount : (l.tally m.slot).count l.mode l.epochs m = some t := by
      obtain ⟨t₀, hget, hcount⟩ := Option.bind_eq_some_iff.mp hcounted
      rwa [tally, ← Window.getD_get?_touch l.window m.slot, hget]
    dsimp only [Option.map_some]
    rw [settles_plainly (henough t hcount), apply_ite (onState plainly <$> ·)]
    refine ite_congr rfl (fun _ => ?_) fun _ => ?_
    · rw [modify_touch_plainly]
      rfl
    · let settled : Tally := { t with learned := t.candidate }
      have hstate : ({ l with
            highestRound := max l.highestRound m.round
            window := (l.window.touch m.slot).modify m.slot fun _ => settled } : Learner).plainly =
          { l.plainly with
            highestRound := max l.highestRound m.round
            window := (l.plainly.window.touch m.slot).modify m.slot fun _ => settled.plainly } := by
        rw [modify_touch_plainly]
        rfl
      rw [← erase_bind, ← deliver_plainly, hstate]
      · rfl
      · intro l' delivered
        dsimp only
        rw [apply_ite (onState plainly <$> ·)]
        refine ite_congr rfl (fun _ => ?_) fun _ => rfl
        rw [askForMissing_plainly]
        exact erase_bind fun _ _ => rfl

/-- The only step that asks for the mode is that which looks for a quorum of votes. -/
theorem act_plainly {x : Input} (henough : ∀ m, x = .learn m →
      ∀ t, (l.tally m.slot).count l.mode l.epochs m = some t →
        l.quorum ≤ t.votes.length → l.mode.settles t.votes l.quorum t.disputed = true) :
    l.plainly.act x = onState plainly <$> l.act x := by
  cases x with
  | trust leader => rfl
  | learn m => exact learn_plainly (henough m rfl)
  | request m =>
    rw [act, act, answer_plainly, map_bind]
    rfl
  | response m => exact takeAnswer_plainly l m
  | askAgain =>
    rw [act, act, askAgain, askAgain, ← erase_bind, ← askForMissing_plainly]
    · rfl
    · exact fun _ _ => rfl
  | setEpochs epochs => rfl

end Learner

end ReplicatedLog
