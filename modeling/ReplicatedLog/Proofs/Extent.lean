import ReplicatedLog.Proofs.Pipeline

/-!
# How far windows extend

The window of a role ends at the slot after the last one that was touched (`Window.stop`). Acceptors and
learners touch only slots that were proposed for, so in every world that ordinary events lead to their
windows end at most one slot after the last of these (`Reachable.acceptor_stop_le`,
`Reachable.learner_stop_le`). As long as these slots fit in words, so do the sums that the roles
compute, and no step of an acceptor or a learner fails (`Acceptor.exists_act`, `Learner.exists_act`).
-/

namespace ReplicatedLog

/-- A computation along a list succeeds if it does for each member. -/
theorem Checked.exists_mapM {α β : Type} {f : α → Checked β} {xs : List α}
    (h : ∀ x ∈ xs, ∃ y, f x = .ok y) : ∃ ys, xs.mapM f = .ok ys := by
  induction xs with
  | nil => exact ⟨[], rfl⟩
  | cons x xs ih =>
    obtain ⟨y, hy⟩ := h x List.mem_cons_self
    obtain ⟨ys, hys⟩ := ih fun x hx => h x (List.mem_cons_of_mem _ hx)
    refine ⟨y :: ys, ?_⟩
    rw [List.mapM_cons, hy, hys]
    rfl

namespace Window

variable {α : Type} {w : Window α} {b slot : Nat}

/-- The first slot beyond those that are held. -/
def stop (w : Window α) : Nat := w.low + w.length

/-- Touching a slot that is not given up extends the window to it. -/
theorem stop_touch [Inhabited α] (w : Window α) (slot : Nat) :
    (w.touch slot).stop = if slot < w.low then w.stop else max w.stop (slot + 1) := by
  unfold stop
  rw [low_touch, length_touch]
  split <;> omega

theorem stop_modify [Inhabited α] (w : Window α) (slot : Nat) (f : α → α) :
    (w.modify slot f).stop = (w.touch slot).stop := by
  unfold stop
  rw [low_modify, length_modify, low_touch]

theorem stop_raise (w : Window α) (below : Nat) : (w.raise below).stop = max w.stop below := by
  unfold stop
  rw [low_raise, length_raise]
  omega

theorem stop_touch_le [Inhabited α] (hstop : w.stop ≤ b) (hslot : slot < b) :
    (w.touch slot).stop ≤ b := by
  rw [stop_touch]
  split <;> omega

theorem stop_modify_le [Inhabited α] (hstop : w.stop ≤ b) (hslot : slot < b) (f : α → α) :
    (w.modify slot f).stop ≤ b :=
  (stop_modify w slot f).trans_le (stop_touch_le hstop hslot)

theorem stop_raise_le (hstop : w.stop ≤ b) (hslot : slot ≤ b) : (w.raise slot).stop ≤ b :=
  (stop_raise w slot).trans_le (max_le hstop hslot)

/-- Changing records one after the other. -/
theorem stop_foldl_modify_le {β : Type} [Inhabited α] {xs : List β} (slotOf : β → Nat)
    (f : β → α → α) (hstop : w.stop ≤ b) (hxs : ∀ x ∈ xs, slotOf x < b) :
    (xs.foldl (fun w x => w.modify (slotOf x) (f x)) w).stop ≤ b :=
  List.foldlRecOn (motive := fun w : Window α => w.stop ≤ b) _ _ hstop
    fun _ hw x hx => stop_modify_le hw (hxs x hx) _

/-- A range can be listed if the end of the window fits in a word. -/
theorem exists_range (hstop : w.stop < Word.size) (first last : Nat) :
    ∃ held, w.range first last = .ok held := by
  refine ⟨_, Checked.bind_eq_ok_iff.mpr ⟨_, Word.fit_eq_ok_iff.mpr ⟨hstop, rfl⟩, rfl⟩⟩

theorem range_of_size_le (hstop : Word.size ≤ w.stop) (first last : Nat) :
    w.range first last = .error .addition := by
  have hfit : Word.fit (w.low + w.entries.size) = .error .addition := if_neg (Nat.not_lt.mpr hstop)
  unfold range
  rw [hfit]
  rfl

theorem add_length_entriesFrom_le (hstop : w.stop ≤ b) (hslot : slot ≤ b) :
    slot + (w.entriesFrom slot).length ≤ b := by
  unfold stop length at hstop
  unfold entriesFrom
  split
  · simpa using hslot
  · rw [Array.length_toList, Array.size_extract]
    omega

end Window

/-! ### Acceptors -/

namespace Acceptor

variable {a a' : Acceptor} {b : Nat} {x : Input} {out : List Outgoing}

/-- What the input is about are slots below `b`. -/
def Input.Within (b : Nat) : Input → Prop
  | .prepare m => m.slot < b
  | .accept m => m.slot < b
  | .takeOver s => ∀ r ∈ s.votes, r.slot < b
  | .raiseLow slot => slot < b
  | .setEpochs _ => True

instance (b : Nat) (x : Input) : Decidable (x.Within b) :=
  match x with
  | .prepare m => inferInstanceAs (Decidable (m.slot < b))
  | .accept m => inferInstanceAs (Decidable (m.slot < b))
  | .takeOver s => inferInstanceAs (Decidable (∀ r ∈ s.votes, r.slot < b))
  | .raiseLow slot => inferInstanceAs (Decidable (slot < b))
  | .setEpochs _ => inferInstanceAs (Decidable True)

/-- The window of an acceptor extends no further than what happens to it. -/
theorem stop_le_of_act (hstop : a.window.stop ≤ b) (hx : x.Within b)
    (h : a.act x = .ok (a', out)) : a'.window.stop ≤ b := by
  cases x with
  | prepare m =>
    obtain ⟨⟨a₁, answer⟩, hprepare, hret⟩ := Checked.bind_eq_ok_iff.mp h
    cases hret
    rcases prepare_cases hprepare with ⟨-, rfl, -⟩ | ⟨-, rfl, -⟩
    · exact hstop
    · exact Window.stop_raise_le hstop ((Nat.sub_le _ _).trans hx.le)
  | accept m =>
    have ha' : (a.accept m).1 = a' := congrArg Prod.fst (Except.ok.inj h)
    have htouched : ((a.retainedFor m.slot).touch m.slot).stop ≤ b :=
      Window.stop_touch_le (Window.stop_raise_le hstop ((Nat.sub_le _ _).trans (Nat.le_of_lt hx))) hx
    rw [← ha']
    unfold accept
    split
    · exact hstop
    split
    · exact hstop
    dsimp only
    split
    · exact htouched
    split
    · exact htouched
    · exact Window.stop_modify_le htouched hx _
  | setEpochs epochs =>
    cases h
    exact hstop
  | takeOver s =>
    have hjoined := Window.stop_foldl_modify_le Report.slot
      (fun (r : Report) (vote : Vote) => vote.join r) hstop hx
    cases h
    exact hjoined
  | raiseLow slot =>
    cases h
    exact Window.stop_raise_le hstop (Nat.le_of_lt hx)

/-- A request for a promise is answered if it is declined, or the window fits in words. -/
theorem exists_prepare {m : Prepare}
    (h : m.round ≤ a.round ∨ (a.retainedFor m.slot).stop < Word.size) :
    ∃ r, a.prepare m = .ok r := by
  unfold prepare
  split
  · exact ⟨_, rfl⟩
  · rename_i hround
    obtain ⟨held, hheld⟩ := Window.exists_range (h.resolve_left hround) m.slot
      (a.retainedFor m.slot).highest
    exact ⟨_, Checked.bind_eq_ok_iff.mpr ⟨held, hheld, rfl⟩⟩

theorem prepare_eq_error {m : Prepare} (hround : ¬ m.round ≤ a.round)
    (hstop : Word.size ≤ (a.retainedFor m.slot).stop) : a.prepare m = .error .addition := by
  unfold prepare
  dsimp only
  rw [if_neg hround, Window.range_of_size_le hstop]
  rfl

/-- An acceptor whose slots fit in words tells its votes above any slot but the last. -/
theorem exists_votesAbove {slot : Nat} (hslot : slot + 1 < Word.size)
    (hstop : a.window.stop < Word.size) : ∃ votes, a.votesAbove slot = .ok votes := by
  obtain ⟨held, hheld⟩ := Window.exists_range hstop (slot + 1) a.window.highest
  exact ⟨_, Checked.bind_eq_ok_iff.mpr ⟨_, Word.fit_eq_ok_iff.mpr ⟨hslot, rfl⟩,
    Checked.bind_eq_ok_iff.mpr ⟨held, hheld, rfl⟩⟩⟩

/-- An acceptor whose slots fit in words takes every step. That the votes of a snapshot can be counted for
people is no part of a step (`Acceptor.takeOver`), and is not asked for. -/
theorem exists_act (hb : b < Word.size) (hstop : a.window.stop ≤ b) (hx : x.Within b) :
    ∃ a' out, a.act x = .ok (a', out) := by
  cases x with
  | prepare m =>
    have hraised : (a.retainedFor m.slot).stop ≤ b :=
      Window.stop_raise_le hstop ((Nat.sub_le _ _).trans (Nat.le_of_lt hx))
    obtain ⟨⟨a', answer⟩, hprepare⟩ := exists_prepare (m := m) (Or.inr (hraised.trans_lt hb))
    exact ⟨a', _, Checked.bind_eq_ok_iff.mpr ⟨_, hprepare, rfl⟩⟩
  | accept m => exact ⟨_, _, rfl⟩
  | setEpochs epochs => exact ⟨_, _, rfl⟩
  | takeOver s => exact ⟨_, _, rfl⟩
  | raiseLow slot => exact ⟨_, _, rfl⟩

end Acceptor

/-! ### Learners -/

namespace Learner

variable {l l' : Learner} {b : Nat} {x : Input} {d : Delivery}

/-- What the input is about are slots below `b`. -/
def Input.Within (b : Nat) : Input → Prop
  | .learn m => m.slot < b
  | .response m => ∀ d ∈ m.decided, d.1 < b
  | _ => True

instance (b : Nat) (x : Input) : Decidable (x.Within b) := by
  unfold Input.Within
  split <;> infer_instance

theorem length_ready_le (tallies : List Tally) : (ready tallies).length ≤ tallies.length := by
  induction tallies with
  | nil => exact Nat.le_refl 0
  | cons t rest ih =>
    unfold ready
    split
    · exact Nat.zero_le _
    · exact Nat.succ_le_succ ih

/-- Delivering goes no further than the window. -/
theorem next_le_of_deliver {delivered : List (Nat × Value)}
    (h : l.deliver = .ok (l', delivered)) (hnext : l.next ≤ b) (hstop : l.window.stop ≤ b) :
    l'.next ≤ b ∧ l'.window.stop ≤ b := by
  obtain ⟨next, hfit, hret⟩ := Checked.bind_eq_ok_iff.mp h
  obtain ⟨-, rfl⟩ := Word.fit_eq_ok_iff.mp hfit
  obtain ⟨rfl, rfl⟩ := Prod.mk.inj (Except.ok.inj hret)
  have hle : l.next + (ready (l.window.entriesFrom l.next)).length ≤ b :=
    (Nat.add_le_add_left (length_ready_le _) _).trans
      (Window.add_length_entriesFrom_le hstop hnext)
  generalize ready (l.window.entriesFrom l.next) = values at hle ⊢
  have hslots : ∀ mark ∈ (List.range' l.next values.length).zip values, mark.1 < b := by
    rintro ⟨slot, value⟩ hmem
    have hslot := List.mem_range'_1.mp (List.of_mem_zip hmem).1
    dsimp only
    omega
  have hmarked := Window.stop_foldl_modify_le Prod.fst
    (fun _ (t : Tally) => { t with decided := true }) hstop hslots
  refine ⟨hle, ?_⟩
  dsimp only
  split
  · exact hmarked
  · exact Window.stop_raise_le hmarked ((Nat.sub_le _ _).trans hle)

/-- Delivering does not fail if some slot that fits in a word is not learned: it stops there. -/
theorem exists_deliver_of_open (hb : b < Word.size) (hnext : l.next ≤ b)
    (hopen : (l.tally b).learned = none) : ∃ l' delivered, l.deliver = .ok (l', delivered) := by
  have hle : l.next + (ready (l.window.entriesFrom l.next)).length ≤ b := by
    by_contra hlt
    have hready : b - l.next < (ready (l.window.entriesFrom l.next)).length := by omega
    obtain ⟨t, ht, hlearned⟩ := learned_of_ready (List.getElem?_eq_getElem hready)
    have hget := Window.get?_of_entriesFrom ht
    rw [Nat.add_sub_cancel' hnext] at hget
    rw [tally, hget] at hopen
    rw [Option.getD_some, hlearned] at hopen
    cases hopen
  exact ⟨_, _, Checked.bind_eq_ok_iff.mpr
    ⟨_, Word.fit_eq_ok_iff.mpr ⟨hle.trans_lt hb, rfl⟩, rfl⟩⟩

theorem exists_deliver (hb : b < Word.size) (hnext : l.next ≤ b) (hstop : l.window.stop ≤ b) :
    ∃ l' delivered, l.deliver = .ok (l', delivered) := by
  refine exists_deliver_of_open hb hnext ?_
  rw [tally, Window.get?_eq_none_iff.mpr (Or.inr hstop)]
  rfl

theorem exists_missing (hstop : l.window.stop < Word.size) : ∃ ranges, l.missing = .ok ranges := by
  obtain ⟨held, hheld⟩ := Window.exists_range hstop l.next l.window.highest
  unfold missing
  rw [hheld]
  simp only [bind, Except.bind]
  split <;> exact ⟨_, rfl⟩

theorem exists_askForMissing (hb : b < Word.size) (hstop : l.window.stop ≤ b) :
    ∃ l' out, l.askForMissing = .ok (l', out) := by
  unfold askForMissing
  split
  · exact ⟨_, _, rfl⟩
  split
  · exact ⟨_, _, rfl⟩
  split
  · exact ⟨_, _, rfl⟩
  obtain ⟨ranges, hranges⟩ := exists_missing (hstop.trans_lt hb)
  rw [hranges]
  simp only [bind, Except.bind]
  split <;> exact ⟨_, _, rfl⟩

theorem exists_answer (hstop : l.window.stop < Word.size) (m : CatchUpRequest) :
    ∃ o, l.answer m = .ok o := by
  obtain ⟨held, hheld⟩ : ∃ held, m.ranges.mapM (fun r => l.window.range r.1 r.2) = .ok held :=
    Checked.exists_mapM fun range _ => Window.exists_range hstop _ _
  exact ⟨_, Checked.bind_eq_ok_iff.mpr ⟨held, hheld, rfl⟩⟩

/-- The window that a learner delivers from after an answer. -/
theorem stop_take_le {m : CatchUpResponse} (hstop : l.window.stop ≤ b)
    (hm : ∀ d ∈ m.decided, d.1 < b) : (take l.next l.window m.decided).stop ≤ b := by
  refine List.foldlRecOn (motive := fun w : Window Tally => w.stop ≤ b) _ _ hstop ?_
  rintro w hw ⟨slot, value⟩ hmem
  dsimp only
  split
  · exact hw
  · exact Window.stop_modify_le hw (hm _ hmem) _

/-- A learner whose slots fit in words takes every answer. That the slots filled can be counted for people
is no part of the step (`Learner.takeAnswer`), and is not asked for. -/
theorem exists_takeAnswer {m : CatchUpResponse} (hb : b < Word.size) (hnext : l.next ≤ b)
    (hstop : l.window.stop ≤ b) (hm : ∀ d ∈ m.decided, d.1 < b) :
    ∃ l' d, l.takeAnswer m = .ok (l', d) := by
  obtain ⟨l', delivered, hdeliver⟩ : ∃ l' delivered, deliver { l with
      catchingUp := false
      window := take l.next l.window m.decided } = .ok (l', delivered) :=
    exists_deliver hb hnext (stop_take_le hstop hm)
  exact ⟨l', _, Checked.bind_eq_ok_iff.mpr ⟨_, hdeliver, rfl⟩⟩

/-- A vote extends the window to its slot at most. -/
theorem stop_le_of_learn {m : Learn} (hnext : l.next ≤ b) (hstop : l.window.stop ≤ b)
    (hm : m.slot < b) (h : l.learn m = .ok (l', d)) : l'.window.stop ≤ b := by
  have htouched := Window.stop_touch_le hstop hm
  unfold learn at h
  dsimp only at h
  split at h
  · cases h
    exact hstop
  split at h
  · cases h
    exact htouched
  split at h
  · cases h
    exact Window.stop_modify_le htouched hm _
  obtain ⟨⟨l₁, delivered⟩, hdeliver, hrest⟩ := Checked.bind_eq_ok_iff.mp h
  have hle := (next_le_of_deliver hdeliver hnext (Window.stop_modify_le htouched hm _)).2
  dsimp only at hrest
  split at hrest
  · obtain ⟨⟨l₂, outbound⟩, hask, hret⟩ := Checked.bind_eq_ok_iff.mp hrest
    obtain ⟨rfl, rfl⟩ := Prod.mk.inj (Except.ok.inj hret)
    obtain ⟨⟨catchingUp, rfl⟩, -⟩ := askForMissing_cases hask
    exact hle
  · obtain ⟨rfl, rfl⟩ := Prod.mk.inj (Except.ok.inj hrest)
    exact hle

/-- The window of a learner extends no further than what happens to it. -/
theorem stop_le_of_act (hnext : l.next ≤ b) (hstop : l.window.stop ≤ b) (hx : x.Within b)
    (h : l.act x = .ok (l', d)) : l'.window.stop ≤ b := by
  cases x with
  | trust leader =>
    cases h
    exact hstop
  | learn m => exact stop_le_of_learn hnext hstop hx h
  | request m =>
    obtain ⟨o, -, hret⟩ := Checked.bind_eq_ok_iff.mp h
    cases hret
    exact hstop
  | response m =>
    obtain ⟨⟨l₁, delivered⟩, hdeliver, hret⟩ := Checked.bind_eq_ok_iff.mp h
    obtain ⟨rfl, rfl⟩ := Prod.mk.inj (Except.ok.inj hret)
    exact (next_le_of_deliver hdeliver hnext (stop_take_le hstop hx)).2
  | askAgain =>
    obtain ⟨⟨l₁, outbound⟩, hask, hret⟩ := Checked.bind_eq_ok_iff.mp h
    obtain ⟨rfl, rfl⟩ := Prod.mk.inj (Except.ok.inj hret)
    obtain ⟨⟨catchingUp, rfl⟩, -⟩ := askForMissing_cases hask
    exact hstop
  | setEpochs epochs =>
    cases h
    exact hstop

theorem exists_learn (hb : b < Word.size) (hnext : l.next ≤ b) (hstop : l.window.stop ≤ b)
    {m : Learn} (hm : m.slot < b) : ∃ l' d, l.learn m = .ok (l', d) := by
  have htouched := Window.stop_touch_le hstop hm
  unfold learn
  dsimp only
  split
  · exact ⟨_, _, rfl⟩
  split
  · exact ⟨_, _, rfl⟩
  rename_i t _
  split
  · exact ⟨_, _, rfl⟩
  have hmodified := Window.stop_modify_le htouched hm fun _ => { t with learned := t.candidate }
  obtain ⟨l₁, delivered, hdeliver⟩ : ∃ l₁ delivered, deliver { l with
      highestRound := max l.highestRound m.round
      window := (l.window.touch m.slot).modify m.slot fun _ => { t with learned := t.candidate } } =
        .ok (l₁, delivered) := exists_deliver hb hnext hmodified
  rw [hdeliver]
  obtain ⟨l₂, out, hask⟩ := exists_askForMissing hb (next_le_of_deliver hdeliver hnext hmodified).2
  simp only [bind, Except.bind]
  split
  · rw [hask]
    exact ⟨_, _, rfl⟩
  · exact ⟨_, _, rfl⟩

/-- A learner that has nobody to ask takes a vote if some slot that fits in a word is not learned, and the
vote does not settle it. -/
theorem exists_learn_of_open {m : Learn} (hleader : l.leader = none) (hb : b < Word.size)
    (hnext : l.next ≤ b) (hopen : (l.tally b).learned = none)
    (hslot : m.slot = b → ∀ t, (l.tally b).count l.mode l.epochs m = some t →
      l.mode.settles t.votes l.quorum t.disputed = false) : ∃ l' d, l.learn m = .ok (l', d) := by
  unfold learn
  dsimp only
  split
  · exact ⟨_, _, rfl⟩
  split
  · exact ⟨_, _, rfl⟩
  rename_i t ht
  split
  · exact ⟨_, _, rfl⟩
  rename_i hsettles
  rw [Bool.not_eq_true, Bool.not_eq_false'] at hsettles
  have hb' : (((l.window.touch m.slot).modify m.slot
      fun _ => { t with learned := t.candidate }).get? b).getD default = l.tally b := by
    rw [Window.getD_get?_modify, Window.getD_get?_touch]
    split
    · rename_i hm
      obtain ⟨t₀, hget, hcount⟩ := Option.bind_eq_some_iff.mp ht
      have ht₀ : t₀ = l.tally b := by
        rw [tally, ← Window.getD_get?_touch l.window m.slot, hm.1, hget]
        rfl
      rw [hslot hm.1.symm t (ht₀ ▸ hcount)] at hsettles
      cases hsettles
    · rfl
  obtain ⟨l₁, delivered, hdeliver⟩ : ∃ l₁ delivered, deliver { l with
      highestRound := max l.highestRound m.round
      window := (l.window.touch m.slot).modify m.slot fun _ => { t with learned := t.candidate } } =
        .ok (l₁, delivered) := exists_deliver_of_open hb hnext ((congrArg _ hb').trans hopen)
  rw [hdeliver]
  simp only [bind, Except.bind]
  split
  · have hleader' : l₁.leader = none := (leader_of_deliver hdeliver).1.trans hleader
    rw [askForMissing_of_leader_eq_none hleader']
    exact ⟨_, _, rfl⟩
  · exact ⟨_, _, rfl⟩

/-- A learner whose slots fit in words takes every step. -/
theorem exists_act (hb : b < Word.size) (hnext : l.next ≤ b) (hstop : l.window.stop ≤ b)
    (hx : x.Within b) : ∃ l' d, l.act x = .ok (l', d) := by
  cases x with
  | trust leader => exact ⟨_, _, rfl⟩
  | learn m => exact exists_learn hb hnext hstop hx
  | request m =>
    obtain ⟨o, hanswer⟩ := exists_answer (hstop.trans_lt hb) m
    exact ⟨l, _, Checked.bind_eq_ok_iff.mpr ⟨o, hanswer, rfl⟩⟩
  | response m => exact exists_takeAnswer hb hnext hstop hx
  | askAgain =>
    obtain ⟨l₁, out, hask⟩ : ∃ l₁ out, askForMissing { l with catchingUp := false } = .ok (l₁, out) :=
      exists_askForMissing hb hstop
    exact ⟨l₁, _, Checked.bind_eq_ok_iff.mpr ⟨_, hask, rfl⟩⟩
  | setEpochs epochs => exact ⟨_, _, rfl⟩

end Learner

/-! ### Reachable worlds -/

namespace Reachable

variable {c : ReplicaSettings} {Env : World → Event → Prop} {w : World} {last : Nat}

/-- What may happen to an acceptor, other than giving up slots on demand, is about slots that were
proposed for. -/
theorem acceptor_input_within (hlast : ProposedUpTo last w.sent) (h : Reachable c Env w) {i : Nat}
    {x : Acceptor.Input} (hallowed : w.Allowed c.replicas (.acceptor i x))
    (hraise : ∀ slot, x ≠ .raiseLow slot) : x.Within (last + 1) := by
  cases x with
  | prepare m =>
    have hslot := (h.told m.sender).asked_le m (World.said_of_arrives hallowed.2) rfl
    exact Nat.lt_succ_of_le (hslot.trans (h.length_logs_le hlast m.sender))
  | accept m =>
    exact Nat.lt_succ_of_le
      (hlast _ _ _ ⟨m.sender, m.epochs, World.said_of_arrives hallowed.2⟩)
  | setEpochs => trivial
  | takeOver s =>
    exact fun r hr => Nat.lt_succ_of_le (hlast _ _ _ (h.honest.handed s hallowed.2 r hr))
  | raiseLow slot => exact absurd rfl (hraise slot)

/-- What may happen to a learner is about slots that were proposed for. -/
theorem learner_input_within (hlast : ProposedUpTo last w.sent) (h : Reachable c Env w) {i : Nat}
    {x : Learner.Input} (hallowed : w.Allowed c.replicas (.learner i x)) : x.Within (last + 1) := by
  cases x with
  | learn m =>
    exact Nat.lt_succ_of_le
      (hlast _ _ _ (h.honest.cast m (World.said_of_arrives hallowed.2)))
  | response m =>
    rintro ⟨slot, v⟩ hmem
    obtain ⟨r, hproposed⟩ := h.proposed_of_decided
      ((h.learner_recorded m.sender).answered m (World.said_of_arrives hallowed.2) rfl slot v hmem)
    exact Nat.lt_succ_of_le (hlast r slot v hproposed)
  | _ => trivial

/-- The window of an acceptor that is not told to give up slots ends at the latest after the slots that
were proposed for. -/
theorem acceptor_stop_le (hraise : ∀ w i slot, ¬ Env w (.acceptor i (.raiseLow slot)))
    (hlast : ProposedUpTo last w.sent) (h : Reachable c Env w) (i : Nat) :
    (w.acceptors i).window.stop ≤ last + 1 := by
  refine h.acceptors (P := fun _ a sent => ∀ last, ProposedUpTo last sent →
    a.window.stop ≤ last + 1) (fun i last _ => Nat.le_add_left 1 last) ?_ ?_ i last hlast
  · intro i a sent out _ ih last hlast
    exact ih last fun r slot v hv => hlast r slot v (hv.append out)
  · intro w i x a out hw henv hallowed ih hact last hlast
    have hlast' : ProposedUpTo last w.sent := fun r slot v hv => hlast r slot v (hv.append out)
    refine Acceptor.stop_le_of_act (ih last hlast') (hw.acceptor_input_within hlast' hallowed ?_) hact
    rintro slot rfl
    exact hraise w i slot henv

/-- A learner is to deliver no slot beyond the one after those that were proposed for. -/
theorem learner_next_le (hlast : ProposedUpTo last w.sent) (h : Reachable c Env w) (i : Nat) :
    (w.learners i).next ≤ last + 1 := by
  have hlength := h.length_logs_le hlast i
  have hnext := (h.learner_recorded i).next_eq
  omega

/-- The window of a learner ends at the latest after the slots that were proposed for. -/
theorem learner_stop_le (hlast : ProposedUpTo last w.sent) (h : Reachable c Env w) (i : Nat) :
    (w.learners i).window.stop ≤ last + 1 := by
  refine h.learners (P := fun _ l _ sent => ∀ last, ProposedUpTo last sent →
    l.window.stop ≤ last + 1) (fun i last _ => Nat.le_add_left 1 last) ?_ ?_ i last hlast
  · intro i l log sent out _ ih last hlast
    exact ih last fun r slot v hv => hlast r slot v (hv.append out)
  · intro w i x l d hw _ hallowed ih hact last hlast
    have hlast' : ProposedUpTo last w.sent :=
      fun r slot v hv => hlast r slot v (hv.append d.outbound)
    exact Learner.stop_le_of_act (hw.learner_next_le hlast' i) (ih i last hlast')
      (hw.learner_input_within hlast' hallowed) hact

end Reachable

end ReplicatedLog
