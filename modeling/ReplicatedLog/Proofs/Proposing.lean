import ReplicatedLog.Proofs.Roles
import ReplicatedLog.Proofs.Rounds
import Mathlib.Data.List.Induction

/-!
# Steps of a proposer

What the parts of a proposer do, each said once. A proposer is described by the value that it has
for each slot (`Proposer.valueAt`) and by the round of the vote that this value was taken from, if
it was taken from one in this round (`takenIn`).

* Asking for promises raises the round and forgets where values were taken from; no value changes
  (`askPromises_cases`).
* Beginning to propose gives each slot with a report the value of a report of the highest round, and
  keeps the values of the others (`valueAt_begun`).
* Filling the pipeline proposes for consecutive slots; it gives values to slots that had none, and
  changes no other (`fill_cases`). How often these were sent again is counted from then on
  (`fillFrom_resets`).
-/

namespace ReplicatedLog

/-- The round of the vote that the value of the slot was taken from, if it was from one. -/
def Proposal.taken? (e : Proposal) : Option Round :=
  if e.takenFrom.isBottom then none else some e.takenFrom

/-- The value of the slot, if it came from the proposer's queue. -/
def Proposal.own? (e : Proposal) : Option Value := if e.own then e.value else none

namespace Proposer

/-- The value that a window of proposals has for a slot. -/
def valueIn (w : Window Proposal) (slot : Nat) : Option Value := (w.get? slot).bind Proposal.value

/-- The round of the vote that the value of a slot was taken from, if it was from one. -/
def takenIn (w : Window Proposal) (slot : Nat) : Option Round := (w.get? slot).bind Proposal.taken?

/-- The value of a slot that came from the proposer's queue, if it did. -/
def ownIn (w : Window Proposal) (slot : Nat) : Option Value := (w.get? slot).bind Proposal.own?

/-- How often the proposal for a slot was sent again in this round. -/
def resendsIn (w : Window Proposal) (slot : Nat) : Nat := ((w.get? slot).getD default).resends

/-- The value that the proposer has for a slot. -/
def valueAt (p : Proposer) (slot : Nat) : Option Value := valueIn p.window slot

/-- The value of its own that the proposer has for a slot. -/
def ownAt (p : Proposer) (slot : Nat) : Option Value := ownIn p.window slot

/-! ### Windows of proposals -/

@[simp]
theorem valueIn_touch (w : Window Proposal) (slot t : Nat) :
    valueIn (w.touch slot) t = valueIn w t := Window.bind_get?_touch rfl w slot t

theorem valueIn_modify (w : Window Proposal) (slot t : Nat) (g : Proposal → Proposal) :
    valueIn (w.modify slot g) t =
      if t = slot ∧ w.low ≤ slot then (g ((w.get? t).getD default)).value else valueIn w t :=
  Window.bind_get?_modify rfl w slot t g

theorem takenIn_modify (w : Window Proposal) (slot t : Nat) (g : Proposal → Proposal) :
    takenIn (w.modify slot g) t =
      if t = slot ∧ w.low ≤ slot then (g ((w.get? t).getD default)).taken? else takenIn w t :=
  Window.bind_get?_modify rfl w slot t g

theorem valueIn_raise (w : Window Proposal) (below t : Nat) :
    valueIn (w.raise below) t = if t < below then none else valueIn w t :=
  Window.bind_get?_raise w below t

theorem takenIn_raise (w : Window Proposal) (below t : Nat) :
    takenIn (w.raise below) t = if t < below then none else takenIn w t :=
  Window.bind_get?_raise w below t

@[simp]
theorem ownIn_touch (w : Window Proposal) (slot t : Nat) :
    ownIn (w.touch slot) t = ownIn w t := Window.bind_get?_touch rfl w slot t

theorem ownIn_modify (w : Window Proposal) (slot t : Nat) (g : Proposal → Proposal) :
    ownIn (w.modify slot g) t =
      if t = slot ∧ w.low ≤ slot then (g ((w.get? t).getD default)).own? else ownIn w t :=
  Window.bind_get?_modify rfl w slot t g

theorem ownIn_raise (w : Window Proposal) (below t : Nat) :
    ownIn (w.raise below) t = if t < below then none else ownIn w t :=
  Window.bind_get?_raise w below t

@[simp]
theorem resendsIn_touch (w : Window Proposal) (slot t : Nat) :
    resendsIn (w.touch slot) t = resendsIn w t :=
  congrArg Proposal.resends (Window.getD_get?_touch w slot t)

theorem resendsIn_modify (w : Window Proposal) (slot t : Nat) (g : Proposal → Proposal) :
    resendsIn (w.modify slot g) t =
      if t = slot ∧ w.low ≤ slot then (g ((w.get? t).getD default)).resends else resendsIn w t := by
  rw [resendsIn, Window.getD_get?_modify]
  split <;> rfl

theorem resendsIn_raise (w : Window Proposal) {below t : Nat} (h : below ≤ t) :
    resendsIn (w.raise below) t = resendsIn w t := by
  rw [resendsIn, Window.getD_get?_raise, if_neg (Nat.not_lt.mpr h), resendsIn]

/-- The record of a slot that is not below the low mark, blank if it is not held, has the value of
the slot. -/
theorem value_getD (w : Window Proposal) (t : Nat) :
    ((w.get? t).getD default).value = valueIn w t := by
  unfold valueIn
  cases w.get? t <;> rfl

theorem taken?_getD (w : Window Proposal) (t : Nat) :
    ((w.get? t).getD default).taken? = takenIn w t := by
  unfold takenIn
  cases w.get? t <;> rfl

theorem own?_getD (w : Window Proposal) (t : Nat) :
    ((w.get? t).getD default).own? = ownIn w t := by
  unfold ownIn
  cases w.get? t <;> rfl

theorem takenIn_eq_none {w : Window Proposal} {t : Nat} (h : t < w.low ∨ w.highest < t) :
    takenIn w t = none := by
  have hget : w.get? t = none := by
    rw [Window.get?_eq_none_iff]
    unfold Window.highest Window.length at *
    omega
  rw [takenIn, hget]
  rfl

/-- A change that leaves the value of a record alone leaves the value of the slot alone. -/
theorem valueIn_modify_of_value_eq {w : Window Proposal} {slot : Nat} {g : Proposal → Proposal}
    (hg : ∀ e, (g e).value = e.value) (t : Nat) : valueIn (w.modify slot g) t = valueIn w t := by
  rw [valueIn_modify]
  split
  · rw [hg, value_getD]
  · rfl

/-- A change that leaves alone whether the value of a record is its own, leaves it alone for the
slot. -/
theorem ownIn_modify_of_own_eq {w : Window Proposal} {slot : Nat} {g : Proposal → Proposal}
    (hg : ∀ e, (g e).own? = e.own?) (t : Nat) : ownIn (w.modify slot g) t = ownIn w t := by
  rw [ownIn_modify]
  split
  · rw [hg, own?_getD]
  · rfl

/-! ### Asking for promises -/

theorem low_forgetRound (w : Window Proposal) (first stop : Nat) :
    (forgetRound w first stop).low = w.low := by
  unfold forgetRound
  refine List.foldlRecOn (motive := fun w' : Window Proposal => w'.low = w.low) _ _ rfl ?_
  intro w' hw' slot _
  rw [Window.low_modify, hw']

theorem valueIn_forgetRound (w : Window Proposal) (first stop t : Nat) :
    valueIn (forgetRound w first stop) t = valueIn w t := by
  unfold forgetRound
  refine List.foldlRecOn (motive := fun w' => valueIn w' t = valueIn w t) _ _ rfl ?_
  intro w' hw' slot _
  refine (valueIn_modify_of_value_eq ?_ t).trans hw'
  exact fun _ => rfl

theorem ownIn_forgetRound (w : Window Proposal) (first stop t : Nat) :
    ownIn (forgetRound w first stop) t = ownIn w t := by
  unfold forgetRound
  refine List.foldlRecOn (motive := fun w' => ownIn w' t = ownIn w t) _ _ rfl ?_
  intro w' hw' slot _
  refine (ownIn_modify_of_own_eq ?_ t).trans hw'
  exact fun _ => rfl

theorem takenIn_forgetRound (w : Window Proposal) (first stop t : Nat) :
    takenIn (forgetRound w first stop) t =
      if first ≤ t ∧ t < stop then none else takenIn w t := by
  have h : ∀ (slots : List Nat) (w : Window Proposal), takenIn (slots.foldl (fun w slot =>
      w.modify slot fun e => { e with takenFrom := .bottom, resends := 0 }) w) t =
        if t ∈ slots then none else takenIn w t := by
    intro slots
    induction slots with
    | nil => intro w; simp
    | cons slot slots ih =>
      intro w
      rw [List.foldl_cons, ih, takenIn_modify]
      by_cases hslot : t = slot
      · subst hslot
        by_cases hlow : w.low ≤ t
        · simp [hlow, Proposal.taken?, Round.bottom, Round.isBottom]
        · simp [hlow, takenIn_eq_none (Or.inl (Nat.not_le.mp hlow))]
      · simp [hslot]
  unfold forgetRound
  rw [h]
  simp only [List.mem_range'_1]
  congr 1
  apply propext
  omega

/-- Asking for promises starts a round of its own above the current one, in phase one, in which no
value was taken from a vote yet. -/
theorem askPromises_cases {p p' : Proposer} {out : List Outgoing}
    (hlow : p.window.low = p.adu + 1) (h : p.askPromises = .ok (p', out)) :
    ∃ (round : Round) (window : Window Proposal),
      p.round < round ∧ round.owner = p.id ∧ round.isBottom = false ∧ round.counter < Word.size ∧
      window.low = p.window.low ∧ (∀ t, valueIn window t = p.valueAt t) ∧
      (∀ t, ownIn window t = p.ownAt t) ∧ (∀ t, takenIn window t = none) ∧
      p' = { p with round, phase := .one, promises := [], window } ∧
      out = [.broadcast (.prepare ⟨p.id, round, p.adu⟩)] := by
  obtain ⟨round, hround, h⟩ := Checked.bind_eq_ok_iff.mp h
  obtain ⟨first, hfirst, h⟩ := Checked.bind_eq_ok_iff.mp h
  obtain ⟨stop, hstop, h⟩ := Checked.bind_eq_ok_iff.mp h
  obtain ⟨-, rfl⟩ := Word.fit_eq_ok_iff.mp hfirst
  obtain ⟨-, rfl⟩ := Word.fit_eq_ok_iff.mp hstop
  cases h
  obtain ⟨habove, howner, hbottom, hcounter⟩ := Round.next_eq_ok hround
  refine ⟨round, _, habove, howner, hbottom, hcounter, low_forgetRound _ _ _, valueIn_forgetRound _ _ _,
    ownIn_forgetRound _ _ _, fun t => ?_, rfl, rfl⟩
  rw [takenIn_forgetRound]
  split
  · rfl
  · exact takenIn_eq_none (by omega)

/-- Asking for promises changes the round, what is known about the values in it, and the phase, and
nothing else. -/
theorem exists_of_askPromises {p p' : Proposer} {out : List Outgoing}
    (h : p.askPromises = .ok (p', out)) :
    ∃ round window, p' = { p with round, phase := .one, promises := [], window } := by
  obtain ⟨round, -, h⟩ := Checked.bind_eq_ok_iff.mp h
  obtain ⟨first, -, h⟩ := Checked.bind_eq_ok_iff.mp h
  obtain ⟨stop, -, h⟩ := Checked.bind_eq_ok_iff.mp h
  cases h
  exact ⟨_, _, rfl⟩

/-! ### Filling the pipeline -/

/-- A run of proposals for the slots from `slot` on, out of the window `w`: consecutive slots, each
for the value that it had or, if it had none, for one that it has now. -/
structure Filled.Continues (w : Window Proposal) (slot : Nat) (f : Filled) : Prop where
  /-- The window is neither cut nor moved. -/
  low_eq : f.window.low = w.low
  /-- The slots follow each other. -/
  slots : f.sent.map Prod.fst = List.range' slot f.sent.length
  /-- What is proposed is what the slot has, and had if it had a value. -/
  value_of_sent : ∀ t v, (t, v) ∈ f.sent →
    valueIn f.window t = some v ∧ (valueIn w t = some v ∨ valueIn w t = none)
  /-- The values of other slots stay. -/
  value_eq : ∀ t, t < slot ∨ slot + f.sent.length ≤ t → valueIn f.window t = valueIn w t

theorem Filled.Continues.mem_slots {w : Window Proposal} {slot t : Nat} {v : Value} {f : Filled}
    (h : f.Continues w slot) (ht : (t, v) ∈ f.sent) : slot ≤ t ∧ t < slot + f.sent.length := by
  have hmem : t ∈ f.sent.map Prod.fst := List.mem_map.mpr ⟨_, ht, rfl⟩
  rwa [h.slots, List.mem_range'_1] at hmem

/-- Where there was a value, there is no other now. -/
theorem Filled.Continues.value_cases {w : Window Proposal} {slot : Nat} {f : Filled}
    (h : f.Continues w slot) (t : Nat) :
    valueIn f.window t = valueIn w t ∨ valueIn w t = none := by
  by_cases ht : slot ≤ t ∧ t < slot + f.sent.length
  · have hmem : t ∈ f.sent.map Prod.fst := by rwa [h.slots, List.mem_range'_1]
    obtain ⟨⟨t', v⟩, hin, rfl⟩ := List.mem_map.mp hmem
    obtain ⟨hnow, hbefore⟩ := h.value_of_sent t' v hin
    exact hbefore.imp_left fun hbefore => hnow.trans hbefore.symm
  · exact Or.inl (h.value_eq t (by omega))

/-- Nothing is proposed. -/
theorem Filled.Continues.nil {w w' : Window Proposal} (slot : Nat) (queue : List Value)
    (hlow : w'.low = w.low) (hvalue : ∀ t, valueIn w' t = valueIn w t) :
    (⟨w', queue, []⟩ : Filled).Continues w slot :=
  ⟨hlow, rfl, fun _ _ h => (List.not_mem_nil h).elim, fun t _ => hvalue t⟩

/-- One more proposal before a run of proposals. -/
theorem Filled.Continues.cons {w w' : Window Proposal} {slot : Nat} {v : Value} {f : Filled}
    (h : f.Continues w' (slot + 1)) (hlow : w'.low = w.low) (hself : valueIn w' slot = some v)
    (hbefore : valueIn w slot = some v ∨ valueIn w slot = none)
    (hothers : ∀ t, t ≠ slot → valueIn w' t = valueIn w t) :
    ({ f with sent := (slot, v) :: f.sent } : Filled).Continues w slot := by
  refine ⟨h.low_eq.trans hlow, ?_, fun t u ht => ?_, fun t ht => ?_⟩
  · simp [h.slots, List.range'_succ]
  · rcases List.mem_cons.mp ht with heq | ht
    · cases heq
      exact ⟨(h.value_eq slot (Or.inl (Nat.lt_succ_self slot))).trans hself, hbefore⟩
    · have hslot := (h.mem_slots ht).1
      rw [← hothers t (by omega)]
      exact h.value_of_sent t u ht
  · simp only [List.length_cons] at ht
    rw [← hothers t (by omega)]
    exact h.value_eq t (by omega)

theorem fillFrom_continues (room slot : Nat) (w : Window Proposal) (queue : List Value) :
    (fillFrom room slot w queue).Continues w slot := by
  fun_induction fillFrom room slot w queue with
  | case1 slot w queue => exact .nil slot queue rfl fun _ => rfl
  | case2 room slot w window queue _ =>
    exact .nil slot queue (Window.low_touch _ _) (valueIn_touch w slot)
  | case3 room slot w window value takenFrom own resends queue hget window' rest ih =>
    have hvalue : valueIn w slot = some value := by
      rw [← valueIn_touch w slot slot, valueIn, hget]
      rfl
    have hsame : ∀ t, valueIn window' t = valueIn w t := fun t =>
      (valueIn_modify_of_value_eq (by exact fun _ => rfl) t).trans (valueIn_touch w slot t)
    refine ih.cons ?_ ((hsame slot).trans hvalue) (Or.inl hvalue) fun t _ => hsame t
    rw [Window.low_modify, Window.low_touch]
  | case4 room slot w window takenFrom own resends value queue hget window' rest ih =>
    have hvalue : valueIn w slot = none := by
      rw [← valueIn_touch w slot slot, valueIn, hget]
      rfl
    have hlow : window.low ≤ slot := Window.low_le_of_get? hget
    refine ih.cons ?_ ?_ (Or.inr hvalue) fun t ht => ?_
    · rw [Window.low_modify, Window.low_touch]
    · rw [valueIn_modify, if_pos ⟨rfl, hlow⟩]
    · rw [valueIn_modify, if_neg (fun h => ht h.1), valueIn_touch]
  | case5 room slot w window takenFrom own resends _ =>
    exact .nil slot [] (Window.low_touch _ _) (valueIn_touch w slot)

/-- What is proposed now was not sent again yet; for other slots nothing changes. -/
def Filled.Resets (w : Window Proposal) (slot : Nat) (f : Filled) : Prop :=
  ∀ t, resendsIn f.window t =
    if slot ≤ t ∧ t < slot + f.sent.length then 0 else resendsIn w t

theorem Filled.Resets.nil {w w' : Window Proposal} (slot : Nat) (queue : List Value)
    (hresends : ∀ t, resendsIn w' t = resendsIn w t) : (⟨w', queue, []⟩ : Filled).Resets w slot := by
  intro t
  rw [hresends, if_neg (by simp only [List.length_nil]; omega)]

theorem Filled.Resets.cons {w w' : Window Proposal} {slot : Nat} {v : Value} {f : Filled}
    (h : f.Resets w' (slot + 1)) (hself : resendsIn w' slot = 0)
    (hothers : ∀ t, t ≠ slot → resendsIn w' t = resendsIn w t) :
    ({ f with sent := (slot, v) :: f.sent } : Filled).Resets w slot := by
  intro t
  have ht := h t
  rw [List.length_cons]
  by_cases hslot : t = slot
  · subst hslot
    rw [if_neg (by omega), hself] at ht
    rw [if_pos (by omega)]
    exact ht
  · rw [hothers t hslot] at ht
    refine ht.trans (if_congr ?_ rfl rfl)
    omega

theorem fillFrom_resets (room slot : Nat) (w : Window Proposal) (queue : List Value) :
    (fillFrom room slot w queue).Resets w slot := by
  fun_induction fillFrom room slot w queue with
  | case1 slot w queue => exact .nil slot queue fun _ => rfl
  | case2 room slot w window queue => exact .nil slot queue (resendsIn_touch w slot)
  | case3 room slot w window value takenFrom own resends queue hget window' rest ih =>
    have hlow : window.low ≤ slot := Window.low_le_of_get? hget
    refine ih.cons ?_ fun t ht => ?_
    · rw [resendsIn_modify, if_pos ⟨rfl, hlow⟩]
    · rw [resendsIn_modify, if_neg (fun h => ht h.1), resendsIn_touch]
  | case4 room slot w window takenFrom own resends value queue hget window' rest ih =>
    have hlow : window.low ≤ slot := Window.low_le_of_get? hget
    refine ih.cons ?_ fun t ht => ?_
    · rw [resendsIn_modify, if_pos ⟨rfl, hlow⟩]
    · rw [resendsIn_modify, if_neg (fun h => ht h.1), resendsIn_touch]
  | case5 room slot w window => exact .nil slot [] (resendsIn_touch w slot)

/-- Outside phase two nothing happens; in it, the proposer proposes for the slots from `nextSlot`
on. -/
theorem fill_cases {p p' : Proposer} {out : List Outgoing} (h : p.fill = .ok (p', out)) :
    (¬ (p.isLeader = true ∧ p.phase = .two) ∧ p' = p ∧ out = []) ∨
      (p.isLeader = true ∧ p.phase = .two ∧ ∃ room f, f = fillFrom room p.nextSlot p.window p.queue ∧
        f.Continues p.window p.nextSlot ∧
        p' = { p with window := f.window, queue := f.queue,
                      nextSlot := p.nextSlot + f.sent.length } ∧
        out = f.sent.map fun (slot, value) => p.proposal slot value) := by
  unfold fill at h
  split at h
  · rename_i hlead
    rw [Bool.and_eq_true, beq_iff_eq] at hlead
    obtain ⟨last, hlast, h⟩ := Checked.bind_eq_ok_iff.mp h
    obtain ⟨next, hnext, h⟩ := Checked.bind_eq_ok_iff.mp h
    obtain ⟨-, rfl⟩ := Word.fit_eq_ok_iff.mp hnext
    cases h
    exact Or.inr ⟨hlead.1, hlead.2, _, _, rfl, fillFrom_continues _ _ _ _, rfl, rfl⟩
  · rename_i hlead
    rw [Bool.and_eq_true, beq_iff_eq] at hlead
    cases h
    exact Or.inl ⟨hlead, rfl, rfl⟩

/-- Filling the pipeline changes the values, the queue and the next slot, and nothing else. -/
theorem exists_of_fill {p p' : Proposer} {out : List Outgoing} (h : p.fill = .ok (p', out)) :
    ∃ window queue nextSlot, p' = { p with window, queue, nextSlot } := by
  rcases fill_cases h with ⟨-, rfl, -⟩ | ⟨-, -, room, f, -, -, rfl, -⟩
  · exact ⟨p'.window, p'.queue, p'.nextSlot, rfl⟩
  · exact ⟨_, _, _, rfl⟩

/-! ### Taking over votes -/

theorem low_seed (adu : Nat) (w : Window Proposal) (r : Report) : (seed adu w r).low = w.low := by
  unfold seed
  split
  · rfl
  · exact Window.low_modify _ _ _

/-- A report does not touch other slots. -/
theorem seed_of_ne {adu t : Nat} {w : Window Proposal} {r : Report} (h : r.slot ≠ t) :
    valueIn (seed adu w r) t = valueIn w t ∧ takenIn (seed adu w r) t = takenIn w t := by
  unfold seed
  split
  · exact ⟨rfl, rfl⟩
  · rw [valueIn_modify, takenIn_modify, if_neg (fun h' => h h'.1.symm),
      if_neg (fun h' => h h'.1.symm)]
    exact ⟨rfl, rfl⟩

/-- A report is taken over, or the value of its slot comes from a round at least as high. -/
theorem seed_of_eq {adu t : Nat} {w : Window Proposal} {r : Report} (h : r.slot = t) (ht : adu < t)
    (hlow : w.low ≤ t) (hr : r.round.isBottom = false) :
    ((∀ q, takenIn w t = some q → q < r.round) ∧
        valueIn (seed adu w r) t = some r.value ∧ takenIn (seed adu w r) t = some r.round) ∨
      ((∃ q, takenIn w t = some q ∧ r.round ≤ q) ∧
        valueIn (seed adu w r) t = valueIn w t ∧ takenIn (seed adu w r) t = takenIn w t) := by
  subst h
  unfold seed
  have hc : r.slot = r.slot ∧ w.low ≤ r.slot := ⟨rfl, hlow⟩
  rw [if_neg (by omega), valueIn_modify, takenIn_modify, if_pos hc, if_pos hc]
  have htaken := taken?_getD w r.slot
  have hvalue := value_getD w r.slot
  generalize (w.get? r.slot).getD default = e at htaken hvalue ⊢
  rw [← htaken, ← hvalue]
  unfold Proposal.taken?
  by_cases hbottom : e.takenFrom.isBottom = true
  · simp [hbottom, hr]
  · by_cases hlt : e.takenFrom < r.round
    · simp [hbottom, hlt, hr]
    · simp [hbottom, hlt, Round.not_lt.mp hlt]

/-- The value of a slot is not affected by any report, or it is that of a report of the highest
round among the reports for the slot. -/
theorem seed_cases {adu t : Nat} {w : Window Proposal} (reports : List Report) (ht : adu < t)
    (hlow : w.low ≤ t) (hblank : takenIn w t = none)
    (hreports : ∀ r ∈ reports, r.round.isBottom = false) :
    let w' := reports.foldl (seed adu) w
    w'.low = w.low ∧
      (((∀ r ∈ reports, r.slot ≠ t) ∧ valueIn w' t = valueIn w t ∧ takenIn w' t = none) ∨
        ∃ r ∈ reports, r.slot = t ∧ valueIn w' t = some r.value ∧ takenIn w' t = some r.round ∧
          ∀ r' ∈ reports, r'.slot = t → r'.round ≤ r.round) := by
  induction reports using List.reverseRecOn with
  | nil => exact ⟨rfl, Or.inl ⟨by simp, rfl, hblank⟩⟩
  | append_singleton reports r ih =>
    simp only [List.mem_append, List.mem_singleton] at hreports
    obtain ⟨hlow', ih⟩ := ih fun r' hr' => hreports r' (Or.inl hr')
    have hr := hreports r (Or.inr rfl)
    simp only [List.foldl_append, List.foldl_cons, List.foldl_nil, List.mem_append,
      List.mem_singleton]
    refine ⟨(low_seed _ _ _).trans hlow', ?_⟩
    by_cases hslot : r.slot = t
    · -- whatever was taken before, the new report wins only with a higher round
      rcases seed_of_eq hslot ht (hlow'.symm ▸ hlow) hr with
        ⟨hbelow, hvalue, htaken⟩ | ⟨⟨q, hq, hle⟩, hvalue, htaken⟩
      · refine Or.inr ⟨r, Or.inr rfl, hslot, hvalue, htaken, fun r' hr' hslot' => ?_⟩
        rcases hr' with hr' | rfl
        · rcases ih with ⟨hnone, -, -⟩ | ⟨r₀, -, -, -, htaken₀, hmax⟩
          · exact absurd hslot' (hnone r' hr')
          · exact (hmax r' hr' hslot').trans (hbelow _ htaken₀).le
        · exact le_refl _
      · rcases ih with ⟨-, -, hnone⟩ | ⟨r₀, hr₀, hslot₀, hvalue₀, htaken₀, hmax⟩
        · rw [hq] at hnone
          cases hnone
        · refine Or.inr ⟨r₀, Or.inl hr₀, hslot₀, hvalue.trans hvalue₀, htaken.trans htaken₀, ?_⟩
          rintro r' (hr' | rfl) hslot'
          · exact hmax r' hr' hslot'
          · rw [htaken₀] at hq
            cases hq
            exact hle
    · obtain ⟨hvalue, htaken⟩ :
          valueIn (seed adu (reports.foldl (seed adu) w) r) t = _ ∧
            takenIn (seed adu (reports.foldl (seed adu) w) r) t = _ := seed_of_ne hslot
      rw [hvalue, htaken]
      rcases ih with ⟨hnone, hsame, hfree⟩ | ⟨r₀, hr₀, hslot₀, hvalue₀, htaken₀, hmax⟩
      · refine Or.inl ⟨?_, hsame, hfree⟩
        rintro r' (hr' | rfl)
        · exact hnone r' hr'
        · exact hslot
      · refine Or.inr ⟨r₀, Or.inl hr₀, hslot₀, hvalue₀, htaken₀, ?_⟩
        rintro r' (hr' | rfl) hslot'
        · exact hmax r' hr' hslot'
        · exact absurd hslot' hslot

/-- Holes are filled with no-ops up to the last slot; other values stay. -/
theorem valueIn_plug (w : Window Proposal) (adu last t : Nat) :
    valueIn (plug w adu last) t =
      if adu < t ∧ t ≤ last ∧ w.low ≤ t then some ((valueIn w t).getD .noop)
      else valueIn w t := by
  have h : ∀ (slots : List Nat) (w : Window Proposal), valueIn (slots.foldl (fun w slot =>
      w.modify slot fun e => if e.value.isNone then { e with value := some .noop, own := false }
        else e) w) t =
      if t ∈ slots ∧ w.low ≤ t then some ((valueIn w t).getD .noop) else valueIn w t := by
    intro slots
    induction slots with
    | nil => intro w; simp
    | cons slot slots ih =>
      intro w
      rw [List.foldl_cons, ih, Window.low_modify, valueIn_modify]
      by_cases hslot : t = slot
      · subst hslot
        by_cases hlow : w.low ≤ t
        · have hvalue := value_getD w t
          generalize (w.get? t).getD default = e at hvalue
          simp only [hlow, and_true, if_true, List.mem_cons, true_or, ← hvalue]
          cases e with
          | mk value => cases value <;> simp
        · simp [hlow]
      · simp [hslot]
  unfold plug
  rw [h]
  simp only [List.mem_range'_1]
  congr 1
  apply propext
  omega

end Proposer

end ReplicatedLog
