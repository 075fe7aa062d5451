import ReplicatedLog.Proofs.AcceptorRuns
import ReplicatedLog.Proofs.Extent
import Mathlib.Data.List.Sort

/-!
# Handing over to a fresh acceptor

When a replica is replaced, a fresh acceptor takes the place of its acceptor: it is told the low mark,
and takes over the votes for the slots above a given one (`Acceptor.replacement`). Its window has
another shape. What was given up, what was never voted for and the votes for lower slots are not in it,
and slots that the old acceptor holds without a vote are not held.

None of this can be told from outside. The two windows have the same low mark and the same records
above the slot (`Window.AgreesAbove`), this stays so whatever happens to both acceptors
(`Acceptor.AlikeAbove.act`), and a request about slots above the slot is answered from these alone. So
the two give the same answers for ever (`Acceptor.Run.answers_replacement`).
-/

namespace ReplicatedLog

namespace Window

variable {α : Type} [Inhabited α] {slot : Nat} {w w' : Window α}

/-- The windows have given up the same slots and have the same records above `slot`, where what is not
held counts as blank. How far they extend may differ, but not if one of them extends beyond words. -/
structure AgreesAbove (slot : Nat) (w w' : Window α) : Prop where
  /-- They have the same low mark. -/
  low_eq : w'.low = w.low
  /-- If one of them ends within words, so does the other. -/
  stop_lt_iff : w'.stop < Word.size ↔ w.stop < Word.size
  /-- They have the same records. -/
  getD_get?_eq : ∀ t, slot < t → (w'.get? t).getD default = (w.get? t).getD default

theorem AgreesAbove.raise (h : w.AgreesAbove slot w') (below : Nat) :
    (w.raise below).AgreesAbove slot (w'.raise below) where
  low_eq := by rw [low_raise, low_raise, h.low_eq]
  stop_lt_iff := by rw [stop_raise, stop_raise, Nat.max_lt, Nat.max_lt, h.stop_lt_iff]
  getD_get?_eq t ht := by rw [getD_get?_raise, getD_get?_raise, h.getD_get?_eq t ht]

theorem AgreesAbove.touch (h : w.AgreesAbove slot w') (t : Nat) :
    (w.touch t).AgreesAbove slot (w'.touch t) where
  low_eq := by rw [low_touch, low_touch, h.low_eq]
  stop_lt_iff := by
    rw [stop_touch, stop_touch, h.low_eq]
    split
    · exact h.stop_lt_iff
    · rw [Nat.max_lt, Nat.max_lt, h.stop_lt_iff]
  getD_get?_eq t' ht' := by rw [getD_get?_touch, getD_get?_touch, h.getD_get?_eq t' ht']

theorem AgreesAbove.modify (h : w.AgreesAbove slot w') (t : Nat) (f : α → α) :
    (w.modify t f).AgreesAbove slot (w'.modify t f) where
  low_eq := by rw [low_modify, low_modify, h.low_eq]
  stop_lt_iff := by rw [stop_modify, stop_modify, (h.touch t).stop_lt_iff]
  getD_get?_eq t' ht' := by
    rw [getD_get?_modify, getD_get?_modify, h.low_eq, h.getD_get?_eq t' ht']

end Window

namespace Acceptor

variable {a b a' : Acceptor} {slot bound : Nat} {past : Past} {s : Snapshot} {x : Input}

/-! ### Acceptors that cannot be told apart -/

/-- The acceptors differ in their windows only, which agree above `slot`. -/
def AlikeAbove (slot : Nat) (a b : Acceptor) : Prop :=
  ∃ window, b = { a with window } ∧ a.window.AgreesAbove slot window

/-- A request for a promise or a vote is about slots above `slot`. -/
def Input.Above (slot : Nat) : Input → Prop
  | .prepare m => slot < m.slot
  | .accept m => slot < m.slot
  | _ => True

instance (slot : Nat) (x : Input) : Decidable (x.Above slot) :=
  match x with
  | .prepare m => inferInstanceAs (Decidable (slot < m.slot))
  | .accept m => inferInstanceAs (Decidable (slot < m.slot))
  | .setEpochs _ | .takeOver _ | .raiseLow _ => inferInstanceAs (Decidable True)

/-- Reports in ascending order of slots are known by their members. -/
theorem reports_eq_of_sorted {reports reports' : List Report}
    (h : (reports.map Report.slot).Pairwise (· < ·))
    (h' : (reports'.map Report.slot).Pairwise (· < ·))
    (hmem : ∀ r, r ∈ reports ↔ r ∈ reports') : reports = reports' := by
  have hirrefl : Std.Irrefl fun a b : Report => a.slot < b.slot := ⟨fun _ => Nat.lt_irrefl _⟩
  have hantisymm : Std.Antisymm fun a b : Report => a.slot < b.slot :=
    ⟨fun _ _ hab hba => absurd hab (Nat.lt_asymm hba)⟩
  exact (List.pairwise_map.mp h).eq_of_mem_iff (List.pairwise_map.mp h') hmem

/-- Alike acceptors promise alike. -/
theorem AlikeAbove.prepare (h : AlikeAbove slot a b) {m : Prepare} (hm : slot < m.slot) :
    (∃ e, a.prepare m = .error e ∧ b.prepare m = .error e) ∨
      ∃ a' b' answer, a.prepare m = .ok (a', answer) ∧ b.prepare m = .ok (b', answer) ∧
        AlikeAbove slot a' b' := by
  obtain ⟨w, rfl, hw⟩ := h
  have hretained : (a.retainedFor m.slot).AgreesAbove slot
      ({ a with window := w }.retainedFor m.slot) := hw.raise _
  by_cases hround : m.round ≤ a.round
  · exact Or.inr ⟨a, { a with window := w }, none, if_pos hround, if_pos hround, w, rfl, hw⟩
  by_cases hstop : (a.retainedFor m.slot).stop < Word.size
  · right
    obtain ⟨⟨a', answer⟩, ha⟩ := exists_prepare (a := a) (m := m) (Or.inr hstop)
    obtain ⟨⟨b', answer'⟩, hb⟩ := exists_prepare (a := { a with window := w }) (m := m)
      (Or.inr (hretained.stop_lt_iff.mpr hstop))
    obtain ⟨-, rfl, reports, rfl, hsorted, hreports⟩ :=
      (prepare_cases ha).resolve_left fun hdeclined => hround hdeclined.1
    obtain ⟨-, rfl, reports', rfl, hsorted', hreports'⟩ :=
      (prepare_cases hb).resolve_left fun hdeclined => hround hdeclined.1
    -- both report the votes that they hold from the asked slot on
    have hsame : reports' = reports := by
      refine reports_eq_of_sorted hsorted' hsorted fun r => ?_
      rw [hreports, hreports']
      refine and_congr_right fun hfirst => ?_
      rw [voteFor_eq_record, voteFor_eq_record]
      exact iff_of_eq (congrArg (fun vote : Vote => vote.report? r.slot = some r ∧ _)
        (hretained.getD_get?_eq r.slot (hm.trans_le hfirst)))
    rw [hsame] at hb
    exact ⟨_, _, _, ha, hb, _, rfl, hretained⟩
  · left
    exact ⟨.addition, prepare_eq_error hround (Nat.not_lt.mp hstop),
      prepare_eq_error hround (Nat.not_lt.mp (mt hretained.stop_lt_iff.mp hstop))⟩

/-- A proposal is answered from the view of the membership, the round, the low mark and the record of
its slot. -/
theorem accept_eq (a : Acceptor) (m : Accept) : a.accept m =
    if a.mode.admits a.id a.epochs m = false ∨ m.round < a.round then (a, none)
    else if m.slot < (a.retainedFor m.slot).low ∨ (a.record m.slot).round = m.round then
      ({ a with window := (a.retainedFor m.slot).touch m.slot }, none)
    else
      ({ a with
        round := max a.round m.round
        window := ((a.retainedFor m.slot).touch m.slot).modify m.slot
          fun _ => ⟨m.round, some m.value⟩ },
      some ⟨a.id, m.slot, m.round, m.value, a.epochs⟩) := by
  unfold accept
  by_cases hadmits : a.mode.admits a.id a.epochs m = false
  · simp only [hadmits, Bool.not_false, if_true, true_or]
  by_cases hround : m.round < a.round
  · simp only [Bool.eq_true_of_not_eq_false hadmits, Bool.not_true, hround, if_true, or_true]
    rfl
  rw [if_neg (by simpa using hadmits), if_neg hround, if_neg (not_or.mpr ⟨hadmits, hround⟩)]
  dsimp only
  by_cases hlow : m.slot < (a.retainedFor m.slot).low
  · rw [Window.get?_of_lt_low (by rwa [Window.low_touch]), if_pos (Or.inl hlow)]
  · -- the slot was touched, so it is held, with the record that it had
    have hheld := Nat.not_lt.mp hlow
    have hget : ((a.retainedFor m.slot).touch m.slot).get? m.slot = some (a.record m.slot) := by
      rw [← record_retainedFor a hheld, record, Window.get?_touch, if_pos ⟨hheld, le_rfl⟩]
      rfl
    rw [hget]
    dsimp only
    by_cases hvoted : (a.record m.slot).round = m.round
    · rw [if_pos hvoted, if_pos (Or.inr hvoted)]
    · rw [if_neg hvoted, if_neg (not_or.mpr ⟨hlow, hvoted⟩)]

/-- Alike acceptors vote alike. -/
theorem AlikeAbove.accept (h : AlikeAbove slot a b) {m : Accept} (hm : slot < m.slot) :
    (b.accept m).2 = (a.accept m).2 ∧ AlikeAbove slot (a.accept m).1 (b.accept m).1 := by
  obtain ⟨w, rfl, hw⟩ := h
  have hretained : (a.retainedFor m.slot).AgreesAbove slot
      ({ a with window := w }.retainedFor m.slot) := hw.raise _
  have hrecord : record { a with window := w } m.slot = a.record m.slot := hw.getD_get?_eq _ hm
  rw [accept_eq, accept_eq, hretained.low_eq, hrecord]
  split
  · exact ⟨rfl, w, rfl, hw⟩
  split
  · exact ⟨rfl, _, rfl, hretained.touch m.slot⟩
  · exact ⟨rfl, _, rfl, (hretained.touch m.slot).modify m.slot _⟩

/-- **Acceptors stay alike**, and answer alike, whatever happens to both of them, if all that they are
asked for is about slots above the slot. -/
theorem AlikeAbove.act (h : AlikeAbove slot a b) (hx : x.Above slot) :
    (∃ e, a.act x = .error e ∧ b.act x = .error e) ∨
      ∃ a' b' out, a.act x = .ok (a', out) ∧ b.act x = .ok (b', out) ∧ AlikeAbove slot a' b' := by
  cases x with
  | prepare m =>
    rcases h.prepare hx with ⟨e, ha, hb⟩ | ⟨a', b', answer, ha, hb, halike⟩
    · left
      exact ⟨e, by simp only [Acceptor.act, ha]; rfl, by simp only [Acceptor.act, hb]; rfl⟩
    · right
      exact ⟨a', b', _, Checked.bind_eq_ok_iff.mpr ⟨_, ha, rfl⟩,
        Checked.bind_eq_ok_iff.mpr ⟨_, hb, rfl⟩, halike⟩
  | accept m =>
    obtain ⟨hanswer, halike⟩ := h.accept hx
    refine Or.inr ⟨_, _, (a.accept m).2.toList.map fun vote => .broadcast (.learn vote), rfl, ?_,
      halike⟩
    rw [← hanswer]
    rfl
  | setEpochs epochs =>
    obtain ⟨w, rfl, hw⟩ := h
    exact Or.inr ⟨_, _, _, rfl, rfl, w, rfl, hw⟩
  | takeOver s =>
    obtain ⟨w, rfl, hw⟩ := h
    refine Or.inr ⟨_, _, _, rfl, rfl, _, rfl, ?_⟩
    unfold takeOver
    dsimp only
    generalize a.window = v at hw
    induction s.votes generalizing v w with
    | nil => exact hw
    | cons r votes ih => exact ih _ _ (hw.modify r.slot _)
  | raiseLow mark =>
    obtain ⟨w, rfl, hw⟩ := h
    exact Or.inr ⟨_, _, _, rfl, rfl, _, rfl, hw.raise mark⟩

/-! ### Replacement -/

/-- A fresh acceptor of the same replica, with the same rules. -/
def fresh (a : Acceptor) : Acceptor :=
  { id := a.id, epochs := a.epochs, retention := a.retention, mode := a.mode }

/-- A fresh acceptor in the place of `a`. It is told the low mark of `a`, and takes over votes. -/
def replacement (a : Acceptor) (s : Snapshot) : Acceptor :=
  (a.fresh.raiseLow a.window.low).takeOver s

/-- A slot that has a vote is within the window. -/
theorem lt_stop_of_voteFor {r : Report} (h : a.voteFor slot = some r) : slot < a.window.stop := by
  obtain ⟨_, hget, -⟩ := Option.bind_eq_some_iff.mp h
  exact (Window.isSome_get?_iff.mp (Option.isSome_of_mem hget)).2

/-- If all that happens to acceptors is about slots below a bound, their windows stay within it. -/
theorem Run.window_within (h : Run (Input.Within bound) a past) (hbound : 0 < bound) :
    1 ≤ a.window.low ∧ a.window.stop ≤ bound := by
  induction h with
  | start => exact ⟨le_rfl, hbound⟩
  | step run fine _ act_eq ih =>
    have hlow := (recording_of_act run.follows.round_le act_eq).low_le
    exact ⟨ih.1.trans hlow, stop_le_of_act ih.2 fine act_eq⟩
  | @takeOver a b past past' slot s run other votes ih ih' =>
    have hslots : ∀ r ∈ s.votes, r.slot < bound := fun r hr =>
      (lt_stop_of_voteFor (voteFor_of_votesAbove votes hr)).trans_le ih'.2
    have hlow := (record_takeOver a s).1
    exact ⟨hlow ▸ ih.1, stop_le_of_act (x := .takeOver s) ih.2 hslots rfl⟩

theorem low_replacement (a : Acceptor) (s : Snapshot) (hlow : 1 ≤ a.window.low) :
    (a.replacement s).window.low = a.window.low := by
  rw [replacement, (record_takeOver _ s).1, raiseLow, fresh, Window.low_raise]
  exact max_eq_right hlow

/-- The records of a replacement are the latest of the votes that were handed over. -/
theorem record_replacement (a : Acceptor) (s : Snapshot) {t : Nat} (ht : a.window.low ≤ t)
    (hlow : 1 ≤ a.window.low) : (a.replacement s).record t = latest s.votes t := by
  have hblank : (a.fresh.raiseLow a.window.low).record t = default := by
    rw [record, raiseLow, fresh, Window.getD_get?_raise, Window.get?_empty]
    exact ite_self _
  have hraised : (a.fresh.raiseLow a.window.low).window.low ≤ t := by
    rw [raiseLow, fresh, Window.low_raise]
    exact max_le (hlow.trans ht) ht
  rw [replacement, (record_takeOver _ s).2 t hraised, hblank]
  rfl

/-- The latest of the votes that are handed over for a slot is its record. -/
theorem Follows.latest_votesAbove (h : Follows past a) (hs : a.votesAbove slot = .ok s) {t : Nat}
    (ht : slot < t) (hlow : a.window.low ≤ t) : latest s.votes t = a.record t := by
  rw [h.record_eq t hlow]
  refine latest_eq_of_report? (Option.ext fun r => ?_)
  have hheld : ∀ {r' : Report}, (latest s.votes t).report? t = some r' → a.voteFor t = some r' := by
    intro r' hr'
    have hvote := voteFor_of_votesAbove hs (isTop_of_latest hr').mem
    obtain ⟨_, -, rfl⟩ := Option.map_eq_some_iff.mp hr'
    exact hvote
  rw [← h.voteFor_eq hlow]
  refine ⟨hheld, fun hr => ?_⟩
  obtain rfl := slot_of_voteFor hr
  -- the vote was handed over, and there is no other one for the slot
  have hbottom := bottom_lt_of_latest (h.voteFor_eq hlow ▸ hr)
  obtain ⟨r', hr'⟩ := exists_latest ((mem_votesAbove hs).mpr ⟨ht, hr⟩) hbottom
  rw [hr', ← hr]
  exact (hheld hr').symm

/-- The votes above a slot can be handed over, and the replacement that takes them over is like the
acceptor. -/
theorem Run.alike_replacement (h : Run (Input.Within bound) a past) (hbound : bound < Word.size)
    (hslot : slot < bound) : ∃ s, a.votesAbove slot = .ok s ∧ AlikeAbove slot a (a.replacement s) := by
  obtain ⟨hlow, hstop⟩ := h.window_within (Nat.zero_lt_of_lt hslot)
  obtain ⟨held, hheld⟩ := Window.exists_range (hstop.trans_lt hbound) (slot + 1) a.window.highest
  have hs : a.votesAbove slot = .ok ⟨a.round, held.filterMap fun e => e.2.report? e.1⟩ :=
    Checked.bind_eq_ok_iff.mpr ⟨_, Word.fit_eq_ok_iff.mpr ⟨lt_of_le_of_lt hslot hbound, rfl⟩,
      Checked.bind_eq_ok_iff.mpr ⟨held, hheld, rfl⟩⟩
  generalize hsnapshot : (⟨a.round, held.filterMap fun e => e.2.report? e.1⟩ : Snapshot) = s
    at hs
  have hround : max Round.bottom s.round = a.round := by
    rw [round_of_votesAbove hs]
    exact max_eq_right (Vote.bottom_le _)
  refine ⟨s, hs, (a.replacement s).window, ?_, low_replacement a s hlow, ?_, fun t ht => ?_⟩
  · rw [← hround]
    rfl
  · have hstop' : (a.replacement s).window.stop ≤ bound := by
      refine stop_le_of_act (x := .takeOver s) ?_ (fun r hr => ?_) rfl
      · refine Window.stop_raise_le (Nat.zero_lt_of_lt hslot) ?_
        exact (Nat.le_add_right _ _).trans hstop
      · exact (lt_stop_of_voteFor (voteFor_of_votesAbove hs hr)).trans_le hstop
    exact iff_of_true (hstop'.trans_lt hbound) (hstop.trans_lt hbound)
  · rcases Nat.lt_or_ge t a.window.low with hlt | hge
    · rw [Window.get?_of_lt_low hlt,
        Window.get?_of_lt_low ((low_replacement a s hlow).symm ▸ hlt)]
    · exact (record_replacement a s hge hlow).trans (h.follows.latest_votesAbove hs ht hge)

/-- **A hand-over loses nothing.** All that happened to an acceptor, and to those whose votes it took
over, was about slots below a bound that a word holds. Then its votes above a slot can be handed over,
and a fresh acceptor that is told its low mark and takes them over gives the same answers, whatever
happens to both from then on, as long as all that they are asked for is about slots above the slot: the
same promises to the same replicas, the same votes, or none. -/
theorem Run.answers_replacement (h : Run (Input.Within bound) a past) (hbound : bound < Word.size)
    (hslot : slot < bound) : ∃ s, a.votesAbove slot = .ok s ∧
      ∀ xs : List Input, (∀ x ∈ xs, x.Above slot) →
        answers act (a.replacement s) xs = answers act a xs := by
  obtain ⟨s, hs, halike⟩ := h.alike_replacement hbound hslot
  exact ⟨s, hs, fun xs hxs => (answers_eq (fun _ _ _ halike hx => halike.act hx) halike hxs).symm⟩

/-- An acceptor that was asked about slot 6 in vain, voted for slots 2 and 3, took over a vote for slot 4
and gave up slot 1 hands over what is above slot 2. Its replacement holds three slots instead of five. Both
promise with the votes for slots 3 and 4, decline a lower round, vote for slot 5, and report that. -/
theorem answers_replacement_of_taken_over :
    ∃ (a : Acceptor) (past : Past) (s : Snapshot) (xs : List Input),
    Run (Input.Within 100) a past ∧ a.votesAbove 2 = .ok s ∧ a.window.length = 5 ∧
    (a.replacement s).window.length = 3 ∧
    answers act (a.replacement s) xs = answers act a xs ∧
    ((answers act a xs).map fun out => out.toOption.map List.length) =
      [some 1, some 0, some 1, some 1] := by
  let e : EpochVector := .zeros 3
  let v (n : UInt8) : Value := .appBatch [n]
  let s : Snapshot := ⟨⟨2, 1⟩, [⟨4, ⟨2, 1⟩, v 68⟩]⟩
  let xs : List Input := [.prepare ⟨0, ⟨3, 0⟩, 3⟩, .accept ⟨1, ⟨2, 1⟩, 3, v 67, e⟩,
    .accept ⟨0, ⟨3, 0⟩, 5, v 69, e⟩, .prepare ⟨2, ⟨3, 2⟩, 4⟩]
  have hs := exists_handed (Input.Within 100) (.start 2 e 10 .epochAware)
    [.accept ⟨1, ⟨2, 1⟩, 4, v 68, e⟩] 0 s (by decide +kernel)
  obtain ⟨a, past, h, hlength, hreplaced, hanswers⟩ := exists_run (Input.Within 100)
    (List.forall_mem_singleton.mpr hs) (.start 1 e 10 .epochAware)
    [.accept ⟨0, ⟨0, 0⟩, 6, v 70, e⟩, .accept ⟨0, ⟨1, 0⟩, 2, v 66, e⟩,
      .accept ⟨0, ⟨1, 0⟩, 3, v 67, e⟩, .takeOver s, .raiseLow 2]
    (fun a _ => a.window.length = 5 ∧
      (a.votesAbove 2).toOption.map (fun s => (a.replacement s).window.length) = some 3 ∧
      ((answers act a xs).map fun out => out.toOption.map List.length) =
        [some 1, some 0, some 1, some 1]) (by decide +kernel)
  have hbound : 100 < Word.size := by decide
  have hslot : 2 < 100 := by decide
  obtain ⟨s, hs, hsame⟩ := h.answers_replacement hbound hslot
  rw [hs] at hreplaced
  exact ⟨a, past, s, xs, h, hs, hlength, Option.some.inj hreplaced, hsame xs (by decide), hanswers⟩

end Acceptor

end ReplicatedLog
