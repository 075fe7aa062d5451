import ReplicatedLog.Proofs.Roles

/-!
# Steps of an acceptor

What one step of an acceptor can be, said once for all its inputs. An acceptor is described by its
round, its low mark and the vote that it holds for each slot. Apart from taking over the votes of
another acceptor there are three kinds of steps (`Acceptor.Acts`):

* it sends nothing and keeps its round — a request was declined, or slots were given up;
* it promises a higher round and reports the votes that it still holds from the asked slot on;
* it votes, in a round not below its own, for a slot that it has not given up.

In all of them a vote may be lost below the low mark, and nowhere else.
-/

namespace ReplicatedLog

namespace Acceptor

/-- The vote that the acceptor holds for a slot, if it holds one. -/
def voteFor (a : Acceptor) (slot : Nat) : Option Report :=
  (a.window.get? slot).bind fun vote => vote.report? slot

/-- The record of a slot; blank if none is held. -/
def record (a : Acceptor) (slot : Nat) : Vote := (a.window.get? slot).getD default

theorem voteFor_eq_record (a : Acceptor) (slot : Nat) :
    a.voteFor slot = (a.record slot).report? slot := by
  unfold voteFor record
  cases a.window.get? slot <;> rfl

theorem slot_of_voteFor {a : Acceptor} {slot : Nat} {r : Report} (h : a.voteFor slot = some r) :
    r.slot = slot := by
  unfold voteFor at h
  obtain ⟨vote, -, hr⟩ := Option.bind_eq_some_iff.mp h
  unfold Vote.report? at hr
  obtain ⟨_, -, rfl⟩ := Option.map_eq_some_iff.mp hr
  rfl

theorem low_le_of_voteFor {a : Acceptor} {slot : Nat} {r : Report} (h : a.voteFor slot = some r) :
    a.window.low ≤ slot := by
  unfold voteFor at h
  obtain ⟨vote, hvote, -⟩ := Option.bind_eq_some_iff.mp h
  exact Window.low_le_of_get? hvote

/-- The mark below which an input makes the acceptor give up slots. -/
def Input.mark (retention : Nat) : Input → Nat
  | .prepare m => m.slot - retention
  | .accept m => m.slot - retention
  | .raiseLow slot => slot
  | _ => 0

/-- From `a` to `a'` votes were given up at most: those below the low mark of `a'`, which was not
raised above `mark`. -/
structure Keeps (mark : Nat) (a a' : Acceptor) : Prop where
  /-- It is the same acceptor. -/
  id_eq : a'.id = a.id
  /-- It keeps as many slots. -/
  retention_eq : a'.retention = a.retention
  /-- The low mark does not fall. -/
  low_le : a.window.low ≤ a'.window.low
  /-- The low mark does not rise further than it should. -/
  le_max : a'.window.low ≤ max a.window.low mark
  /-- From the low mark on the votes are the same. -/
  voteFor_eq : ∀ t, a'.voteFor t = if t < a'.window.low then none else a.voteFor t

theorem Keeps.refl (mark : Nat) (a : Acceptor) : Keeps mark a a := by
  refine ⟨rfl, rfl, Nat.le_refl _, Nat.le_max_left _ _, fun t => ?_⟩
  split
  · rename_i h
    cases hv : a.voteFor t with
    | none => rfl
    | some r => exact absurd (low_le_of_voteFor hv) (by omega)
  · rfl

/-- Raising the low mark gives up votes at most. -/
theorem keeps_raise (a : Acceptor) (below : Nat) (round : Round) (epochs : EpochVector) :
    Keeps below a { a with round, epochs, window := a.window.raise below } := by
  refine ⟨rfl, rfl, by simp only [Window.low_raise]; omega, by simp only [Window.low_raise]; omega,
    fun t => ?_⟩
  simp only [voteFor, Window.bind_get?_raise, Window.low_raise]
  split
  · rw [if_pos (by omega)]
  · rename_i h
    split
    · rw [Window.get?_of_lt_low (by omega)]
      rfl
    · rfl

theorem Keeps.touch {mark : Nat} {a a' : Acceptor} (h : Keeps mark a a') (slot : Nat) :
    Keeps mark a { a' with window := a'.window.touch slot } := by
  refine ⟨h.id_eq, h.retention_eq, ?_, ?_, fun t => ?_⟩
  · rw [Window.low_touch]
    exact h.low_le
  · rw [Window.low_touch]
    exact h.le_max
  · have ht := h.voteFor_eq t
    simp only [voteFor, Window.low_touch] at ht ⊢
    rw [Window.bind_get?_touch (by rfl), ht]

/-! ### Preparing and accepting -/

/-- Why the acceptor, which is `a'` afterwards, sends nothing in answer to a message: it is in no
lower round already, or its vote is not wanted, or it gave up the slot, or it voted for the slot in
this round. -/
def Declined (a a' : Acceptor) : Input → Prop
  | .prepare m => m.round ≤ a.round
  | .accept m => a.mode.admits a.id a.epochs m = false ∨ m.round < a.round ∨
      m.slot < a'.window.low ∨ (a'.record m.slot).round = m.round
  | _ => True

/-- A request for a promise is declined, or it raises the round, and the promise reports the votes
held from the asked slot on, in ascending order. -/
theorem prepare_cases {a a' : Acceptor} {m : Prepare} {answer : Option (Promise × Nat)}
    (h : a.prepare m = .ok (a', answer)) :
    (a.Declined a' (.prepare m) ∧ a' = a ∧ answer = none) ∨
      (a.round < m.round ∧ a' = { a with round := m.round, window := a.retainedFor m.slot } ∧
        ∃ reports, answer = some (⟨a.id, m.round, reports, a.epochs⟩, m.sender) ∧
          (reports.map Report.slot).Pairwise (· < ·) ∧
          ∀ r : Report, r ∈ reports ↔
            m.slot ≤ r.slot ∧ a'.voteFor r.slot = some r ∧ r.round.isBottom = false) := by
  unfold prepare at h
  split at h
  · rename_i hround
    cases h
    exact Or.inl ⟨hround, rfl, rfl⟩
  · rename_i hround
    obtain ⟨held, hheld, h⟩ := Checked.bind_eq_ok_iff.mp h
    cases h
    have hsorted := Window.sorted_of_range hheld
    refine Or.inr ⟨Round.not_le.mp hround, rfl, _, rfl, ?_, fun r => ?_⟩
    · rw [List.pairwise_map] at hsorted ⊢
      refine List.Pairwise.filterMap _ ?_ (hsorted.filter _)
      intro s t hlt r hr r' hr'
      obtain ⟨_, -, rfl⟩ := Option.map_eq_some_iff.mp hr
      obtain ⟨_, -, rfl⟩ := Option.map_eq_some_iff.mp hr'
      exact hlt
    have hmem : ∀ slot vote, (slot, vote) ∈ held ↔ m.slot ≤ slot ∧
        slot ≤ (a.retainedFor m.slot).highest ∧ (a.retainedFor m.slot).get? slot = some vote :=
      fun _ _ => Window.mem_of_range hheld
    simp only [List.mem_filterMap, List.mem_filter, Prod.exists, voteFor, Vote.report?]
    constructor
    · rintro ⟨slot, vote, ⟨hin, hb⟩, hr⟩
      obtain ⟨value, hvalue, rfl⟩ := Option.map_eq_some_iff.mp hr
      obtain ⟨hfirst, -, hget⟩ := (hmem slot vote).mp hin
      refine ⟨hfirst, ?_, by simpa using hb⟩
      rw [hget, Option.bind_some, hvalue]
      rfl
    · rintro ⟨hfirst, hvote, hb⟩
      obtain ⟨vote, hget, hr⟩ := Option.bind_eq_some_iff.mp hvote
      obtain ⟨value, hvalue, hr'⟩ := Option.map_eq_some_iff.mp hr
      have hheld := Window.isSome_get?_iff.mp (Option.isSome_of_mem hget)
      refine ⟨r.slot, vote, ⟨(hmem _ _).mpr ⟨hfirst, ?_, hget⟩, ?_⟩, hr⟩
      · unfold Window.highest
        unfold Window.length at hheld
        omega
      · rw [← hr'] at hb
        simpa using hb

/-- A proposal is declined, or it is voted for in a round not below the acceptor's own; a vote
replaces that of an earlier round for its slot. -/
theorem accept_cases {a a' : Acceptor} {m : Accept} {answer : Option Learn}
    (h : a.accept m = (a', answer)) :
    (a.Declined a' (.accept m) ∧ a'.round = a.round ∧ Keeps (m.slot - a.retention) a a' ∧
        answer = none) ∨
      (a.round ≤ m.round ∧ a'.round = m.round ∧ a'.id = a.id ∧ a'.retention = a.retention ∧
        a.window.low ≤ a'.window.low ∧ a'.window.low ≤ max a.window.low (m.slot - a.retention) ∧
        a'.window.low ≤ m.slot ∧ m.slot ≤ a'.window.low + a.retention ∧
        (∀ t, a'.voteFor t = if t = m.slot then some ⟨m.slot, m.round, m.value⟩
          else if t < a'.window.low then none else a.voteFor t) ∧
        answer = some ⟨a.id, m.slot, m.round, m.value, a.epochs⟩) := by
  have hkeeps : Keeps (m.slot - a.retention) a
      { a with window := (a.retainedFor m.slot).touch m.slot } :=
    (keeps_raise a (m.slot - a.retention) a.round a.epochs).touch m.slot
  unfold accept at h
  split at h
  · rename_i hadmits
    cases h
    exact Or.inl ⟨Or.inl (by simpa using hadmits), rfl, Keeps.refl _ a, rfl⟩
  split at h
  · rename_i hround
    cases h
    exact Or.inl ⟨Or.inr (Or.inl hround), rfl, Keeps.refl _ a, rfl⟩
  rename_i hround
  dsimp only at h
  split at h
  · rename_i hnone
    cases h
    refine Or.inl ⟨Or.inr (Or.inr (Or.inl ?_)), rfl, hkeeps, rfl⟩
    -- it was touched, so it can only be below the low mark
    refine Nat.lt_of_not_le fun hlow => ?_
    rw [Window.get?_touch, if_pos ⟨by rwa [Window.low_touch] at hlow, Nat.le_refl _⟩] at hnone
    cases hnone
  rename_i vote hvote
  split at h
  · rename_i heq
    cases h
    refine Or.inl ⟨Or.inr (Or.inr (Or.inr ?_)), rfl, hkeeps, rfl⟩
    simp only [record, hvote, Option.getD_some, heq]
  · cases h
    have hle := Round.not_lt.mp hround
    have hlow := Window.low_le_of_get? hvote
    refine Or.inr ⟨hle, if_pos hle, rfl, rfl, ?_, ?_, ?_, ?_, fun t => ?_, rfl⟩
    · simpa using hkeeps.low_le
    · simpa using hkeeps.le_max
    · simpa using hlow
    · simp only [Window.low_modify, Window.low_touch, retainedFor, Window.low_raise]
      omega
    · have ht := hkeeps.voteFor_eq t
      simp only [voteFor, Window.low_modify] at ht ⊢
      rw [Window.bind_get?_modify (by rfl)]
      by_cases hslot : t = m.slot
      · subst hslot
        rw [if_pos ⟨rfl, hlow⟩, if_pos rfl]
        rfl
      · rw [if_neg (fun hc => hslot hc.1), if_neg hslot, ht]

/-! ### Handing over votes -/

/-- The votes that are handed over are those that are held for slots above the one that was named. -/
theorem mem_votesAbove {a : Acceptor} {slot : Nat} {s : Snapshot} (h : a.votesAbove slot = .ok s)
    {rep : Report} : rep ∈ s.votes ↔ slot < rep.slot ∧ a.voteFor rep.slot = some rep := by
  obtain ⟨first, hfirst, hrest⟩ := Checked.bind_eq_ok_iff.mp h
  obtain ⟨-, rfl⟩ := Word.fit_eq_ok_iff.mp hfirst
  obtain ⟨held, hheld, hret⟩ := Checked.bind_eq_ok_iff.mp hrest
  obtain rfl := Except.ok.inj hret
  rw [List.mem_filterMap]
  constructor
  · rintro ⟨⟨t, vote⟩, hmem, hvote⟩
    obtain ⟨hlt, -, hget⟩ := (Window.mem_of_range hheld).mp hmem
    have hreport : vote.report? t = some rep := hvote
    have hslot : a.voteFor t = some rep := by rw [voteFor, hget, Option.bind_some, hreport]
    rw [slot_of_voteFor hslot]
    exact ⟨hlt, hslot⟩
  · rintro ⟨hlt, hvote⟩
    obtain ⟨vote, hget, hreport⟩ := Option.bind_eq_some_iff.mp hvote
    have hstop := Window.isSome_get?_iff.mp (Option.isSome_of_mem hget)
    refine ⟨(rep.slot, vote), (Window.mem_of_range hheld).mpr ⟨hlt, ?_, hget⟩, hreport⟩
    unfold Window.highest
    unfold Window.length at hstop
    omega

/-- The votes that are handed over are held. -/
theorem voteFor_of_votesAbove {a : Acceptor} {slot : Nat} {s : Snapshot}
    (h : a.votesAbove slot = .ok s) {rep : Report} (hrep : rep ∈ s.votes) :
    a.voteFor rep.slot = some rep := ((mem_votesAbove h).mp hrep).2

/-- After votes were taken over, each vote held is an old one or one of them. -/
theorem voteFor_takeOver {a : Acceptor} {s : Snapshot} {slot : Nat} {rep : Report}
    (h : (a.takeOver s).voteFor slot = some rep) : a.voteFor slot = some rep ∨ rep ∈ s.votes := by
  revert h
  unfold voteFor takeOver
  refine List.foldlRecOn (motive := fun w : Window Vote =>
    (w.get? slot).bind (fun vote => vote.report? slot) = some rep → _) _ _ Or.inl ?_
  intro w hw r hr h
  rw [Window.bind_get?_modify (by rfl)] at h
  split at h
  · rename_i hslot
    obtain ⟨rfl, -⟩ := hslot
    unfold Vote.join at h
    split at h
    · obtain rfl := Option.some.inj h
      exact Or.inr hr
    · exact hw ((Window.bind_get? (by rfl) w r.slot).trans h)
  · exact hw h

/-! ### Steps -/

/-- What a step of an acceptor can be, other than taking over votes. -/
inductive Acts (a : Acceptor) : Input → Acceptor → List Outgoing → Prop
  /-- It sends nothing. -/
  | quiet {x : Input} {a' : Acceptor} (round_eq : a'.round = a.round)
      (keeps : Keeps (x.mark a.retention) a a') (declined : a.Declined a' x) : Acts a x a' []
  /-- It promises a higher round, and reports its votes in ascending order. -/
  | promise {m : Prepare} {a' : Acceptor} {reports : List Report} (above : a.round < m.round)
      (round_eq : a'.round = m.round) (keeps : Keeps (m.slot - a.retention) a a')
      (mem_reports : ∀ r : Report, r ∈ reports ↔
        m.slot ≤ r.slot ∧ a'.voteFor r.slot = some r ∧ r.round.isBottom = false)
      (sorted : (reports.map Report.slot).Pairwise (· < ·)) :
      Acts a (.prepare m) a' [.unicast m.sender (.promise ⟨a.id, m.round, reports, a.epochs⟩)]
  /-- It votes, for a slot that its retention does not go beyond. -/
  | vote {m : Accept} {a' : Acceptor} (not_below : a.round ≤ m.round)
      (round_eq : a'.round = m.round) (id_eq : a'.id = a.id)
      (retention_eq : a'.retention = a.retention) (low_le : a.window.low ≤ a'.window.low)
      (le_max : a'.window.low ≤ max a.window.low (m.slot - a.retention))
      (low_le_slot : a'.window.low ≤ m.slot)
      (voteFor_eq : ∀ t, a'.voteFor t = if t = m.slot then some ⟨m.slot, m.round, m.value⟩
        else if t < a'.window.low then none else a.voteFor t)
      (slot_le : m.slot ≤ a'.window.low + a.retention) :
      Acts a (.accept m) a' [.broadcast (.learn ⟨a.id, m.slot, m.round, m.value, a.epochs⟩)]

/-- Every step is one of these. -/
theorem acts_of_act {a a' : Acceptor} {x : Input} {out : List Outgoing}
    (hx : ∀ s, x ≠ .takeOver s) (h : a.act x = .ok (a', out)) : Acts a x a' out := by
  cases x with
  | prepare m =>
    obtain ⟨⟨a₁, answer⟩, hprepare, h⟩ := Checked.bind_eq_ok_iff.mp h
    cases h
    rcases prepare_cases hprepare with
      ⟨hdeclined, rfl, rfl⟩ | ⟨habove, rfl, reports, rfl, hsorted, hreports⟩
    · exact .quiet rfl (Keeps.refl _ _) hdeclined
    · exact .promise habove rfl (keeps_raise a _ _ _) hreports hsorted
  | accept m =>
    rcases haccept : a.accept m with ⟨a₁, answer⟩
    simp only [act, haccept] at h
    cases h
    rcases accept_cases haccept with ⟨hdeclined, hround, hkeeps, rfl⟩ |
      ⟨hle, hround, hid, hretention, hlow, hmax, hslot, hretains, hvote, rfl⟩
    · exact .quiet hround hkeeps hdeclined
    · exact .vote hle hround hid hretention hlow hmax hslot hvote hretains
  | setEpochs epochs =>
    cases h
    have hkeeps := Keeps.refl 0 a
    exact .quiet rfl ⟨rfl, rfl, hkeeps.low_le, hkeeps.le_max, hkeeps.voteFor_eq⟩ trivial
  | takeOver s => exact absurd rfl (hx s)
  | raiseLow slot =>
    cases h
    exact .quiet rfl (keeps_raise a slot a.round a.epochs) trivial

/-- An acceptor keeps to its rules, and to its view of the membership until it gets a new one. -/
theorem view_of_act {a a' : Acceptor} {x : Input} {out : List Outgoing}
    (h : a.act x = .ok (a', out)) :
    a'.mode = a.mode ∧ (a'.epochs = a.epochs ∨ x = .setEpochs a'.epochs) := by
  cases x with
  | prepare m =>
    obtain ⟨⟨a₁, answer⟩, hprepare, h⟩ := Checked.bind_eq_ok_iff.mp h
    cases h
    rcases prepare_cases hprepare with ⟨-, rfl, -⟩ | ⟨-, rfl, -⟩
    · exact ⟨rfl, Or.inl rfl⟩
    · exact ⟨rfl, Or.inl rfl⟩
  | accept m =>
    have ha' : (a.accept m).1 = a' := congrArg Prod.fst (Except.ok.inj h)
    rw [← ha']
    unfold accept
    split
    · exact ⟨rfl, Or.inl rfl⟩
    split
    · exact ⟨rfl, Or.inl rfl⟩
    dsimp only
    split
    · exact ⟨rfl, Or.inl rfl⟩
    · split <;> exact ⟨rfl, Or.inl rfl⟩
  | setEpochs epochs =>
    cases h
    exact ⟨rfl, Or.inr rfl⟩
  | takeOver s =>
    cases h
    exact ⟨rfl, Or.inl rfl⟩
  | raiseLow slot =>
    cases h
    exact ⟨rfl, Or.inl rfl⟩

/-- A step gives up slots, and takes none back. -/
theorem low_le_of_act {a a' : Acceptor} {x : Input} {out : List Outgoing}
    (hx : ∀ s, x ≠ .takeOver s) (h : a.act x = .ok (a', out)) : a.window.low ≤ a'.window.low := by
  cases acts_of_act hx h with
  | quiet _ keeps => exact keeps.low_le
  | promise _ _ keeps => exact keeps.low_le
  | vote _ _ _ _ low_le => exact low_le

/-- A step raises the low mark no further than its input says. -/
theorem low_of_act {a a' : Acceptor} {x : Input} {out : List Outgoing}
    (hx : ∀ s, x ≠ .takeOver s) (h : a.act x = .ok (a', out)) :
    a'.retention = a.retention ∧ a'.window.low ≤ max a.window.low (x.mark a.retention) := by
  cases acts_of_act hx h with
  | quiet _ keeps => exact ⟨keeps.retention_eq, keeps.le_max⟩
  | promise _ _ keeps => exact ⟨keeps.retention_eq, keeps.le_max⟩
  | vote _ _ _ retention_eq _ le_max => exact ⟨retention_eq, le_max⟩

/-- An acceptor keeps its name, and speaks in no other. -/
theorem author_of_act {a a' : Acceptor} {x : Input} {out : List Outgoing}
    (h : a.act x = .ok (a', out)) :
    a'.id = a.id ∧ ∀ o ∈ out, o.author = (.acceptor, a.id) := by
  by_cases hx : ∀ s, x ≠ .takeOver s
  · cases acts_of_act hx h with
    | quiet _ keeps => exact ⟨keeps.id_eq, by simp⟩
    | promise _ _ keeps => exact ⟨keeps.id_eq, by simp [Outgoing.author, Outgoing.message,
        Message.author]⟩
    | vote _ _ id_eq => exact ⟨id_eq, by simp [Outgoing.author, Outgoing.message, Message.author]⟩
  · obtain ⟨s, rfl⟩ : ∃ s, x = .takeOver s := by simpa using hx
    cases h
    exact ⟨rfl, by simp⟩

/-! ### Records without a vote -/

/-- A record without a value shows no round either. -/
def Clean (a : Acceptor) : Prop :=
  ∀ slot, (a.record slot).value = none → (a.record slot).round.isBottom = true

/-- A record that shows a round is that of a vote. -/
theorem Clean.exists_voteFor {a : Acceptor} (h : a.Clean) {slot : Nat}
    (hround : (a.record slot).round.isBottom = false) :
    ∃ value, a.voteFor slot = some ⟨slot, (a.record slot).round, value⟩ := by
  cases hvalue : (a.record slot).value with
  | none =>
    rw [h slot hvalue] at hround
    cases hround
  | some value =>
    refine ⟨value, ?_⟩
    rw [voteFor_eq_record, Vote.report?, hvalue]
    rfl

theorem clean_of_window {a : Acceptor} (h : a.window = {}) : a.Clean := by
  intro slot _
  rw [record, h, Window.get?_empty]
  rfl

/-- Raising the low mark and touching slots leave no round behind. -/
theorem Clean.retain {a : Acceptor} (h : a.Clean) (below slot : Nat) :
    Clean { a with window := (a.window.raise below).touch slot } := by
  intro t
  simp only [record, Window.getD_get?_touch, Window.getD_get?_raise]
  split
  · intro _
    rfl
  · exact h t

/-- **Records without a value are blank**, whatever happens to an acceptor. -/
theorem Clean.act {a a' : Acceptor} (h : a.Clean) {x : Input} {out : List Outgoing}
    (hact : a.act x = .ok (a', out)) : a'.Clean := by
  have hraise : ∀ below, Clean { a with window := a.window.raise below } := by
    intro below t
    simp only [record, Window.getD_get?_raise]
    split
    · intro _
      rfl
    · exact h t
  have hmodify : ∀ (a : Acceptor) (slot : Nat) (f : Vote → Vote), a.Clean →
      (∀ vote, (f vote).value = none → vote.value = none ∧ (f vote).round = vote.round) →
      Clean { a with window := a.window.modify slot f } := by
    intro a slot f ha hf t
    simp only [record, Window.getD_get?_modify]
    split
    · intro hnone
      obtain ⟨hvalue, hround⟩ := hf _ hnone
      rw [hround]
      exact ha t hvalue
    · exact ha t
  cases x with
  | prepare m =>
    obtain ⟨⟨a₁, answer⟩, hprepare, hret⟩ := Checked.bind_eq_ok_iff.mp hact
    cases hret
    rcases prepare_cases hprepare with ⟨-, rfl, -⟩ | ⟨-, rfl, -⟩
    · exact h
    · exact hraise _
  | accept m =>
    have ha' : (a.accept m).1 = a' := congrArg Prod.fst (Except.ok.inj hact)
    rw [← ha']
    have hretain := h.retain (m.slot - a.retention) m.slot
    unfold accept
    split
    · exact h
    split
    · exact h
    dsimp only
    split
    · exact hretain
    split
    · exact hretain
    · exact hmodify { a with window := (a.retainedFor m.slot).touch m.slot } m.slot _ hretain
        (by simp)
  | setEpochs epochs =>
    cases hact
    exact h
  | takeOver s =>
    cases hact
    unfold takeOver
    refine List.foldlRecOn (motive := fun w : Window Vote => Clean { a with window := w }) _ _ h ?_
    intro w hw r _
    refine hmodify { a with window := w } r.slot _ hw fun vote hnone => ?_
    unfold Vote.join at hnone ⊢
    split at hnone
    · cases hnone
    · rename_i hround
      rw [if_neg hround]
      exact ⟨hnone, rfl⟩
  | raiseLow slot =>
    cases hact
    exact hraise slot

end Acceptor

end ReplicatedLog
