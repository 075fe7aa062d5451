import ReplicatedLog.Proofs.Ballots
import ReplicatedLog.Proofs.Leading

/-!
# The order of submitted values

A proposer gives values to slots in the order in which they were submitted, if nobody else proposes.
Of the values `S` that it took so far, the first `m` have a slot each, the slot of the `k`-th being
`k`, and the others wait in its queue (`Proposer.InOrder`).

The reports and deliveries that the proposer hears of then bring back its own values, for the slots
that they had. So none of its values ever loses its slot: nothing goes back to the queue, no hole is
found below the slots that are reported, and no value is given to a slot out of turn. All its steps
keep the order, with an `m` that only grows (`Proposer.InOrder.act`).
-/

namespace ReplicatedLog

/-- The value is the one for the slot: its position among the values, counted from one. -/
def IsNth (S : List Value) (slot : Nat) (v : Value) : Prop := 0 < slot ∧ S[slot - 1]? = some v

theorem IsNth.append {S : List Value} {slot : Nat} {v : Value} (h : IsNth S slot v)
    (S' : List Value) : IsNth (S ++ S') slot v := by
  refine ⟨h.1, ?_⟩
  rw [List.getElem?_append_left (List.getElem?_eq_some_iff.mp h.2).1, h.2]

theorem IsNth.unique {S : List Value} {slot : Nat} {v v' : Value} (h : IsNth S slot v)
    (h' : IsNth S slot v') : v = v' := Option.some.inj (h.2.symm.trans h'.2)

namespace Proposer

/-- The slots up to `m` have the values for them, and no later slot has one. -/
def Assigned (S : List Value) (m : Nat) (w : Window Proposal) : Prop :=
  ∀ t, w.low ≤ t → valueIn w t = if t ≤ m then S[t - 1]? else none

/-- Of the values `S` taken so far, the first `m` have their slots and the others wait. -/
structure InOrder (S : List Value) (m : Nat) (p : Proposer) : Prop where
  /-- The window begins after the decided slots. -/
  low_eq : p.window.low = p.adu + 1
  /-- Only slots that have values are decided. -/
  adu_le : p.adu ≤ m
  /-- The next slot is not decided. -/
  adu_lt : p.adu < p.nextSlot
  /-- It is no later than the first slot without a value. -/
  nextSlot_le : p.nextSlot ≤ m + 1
  /-- The values that have slots were taken. -/
  le_length : m ≤ S.length
  /-- The others wait, in order. -/
  queue_eq : p.queue = S.drop m
  /-- The values have their slots. -/
  assigned : Assigned S m p.window
  /-- The votes reported to it are for its own values. -/
  reports : ∀ rep ∈ p.reports, rep.slot ≤ m ∧ IsNth S rep.slot rep.value

variable {S : List Value} {m : Nat} {w : Window Proposal} {p p' : Proposer} {out : List Outgoing}

/-- What a slot has is the value for it. -/
theorem Assigned.isNth (h : Assigned S m w) {t : Nat} {v : Value} (hpos : 0 < t)
    (hlow : w.low ≤ t) (hv : valueIn w t = some v) : t ≤ m ∧ IsNth S t v := by
  rw [h t hlow] at hv
  split at hv
  · exact ⟨by assumption, hpos, hv⟩
  · cases hv

theorem Assigned.congr (h : Assigned S m w) {w' : Window Proposal} (hlow : w.low ≤ w'.low)
    (hvalue : ∀ t, w'.low ≤ t → valueIn w' t = valueIn w t) : Assigned S m w' :=
  fun t ht => (hvalue t ht).trans (h t (hlow.trans ht))

theorem Assigned.touch (h : Assigned S m w) (slot : Nat) : Assigned S m (w.touch slot) :=
  h.congr (Window.low_touch _ _).ge fun t _ => valueIn_touch _ _ t

/-- The next slot after those that have values has none, and no slot before it lacks one. -/
theorem Assigned.eq_of_valueIn_eq_none (h : Assigned S m w) (hm : m ≤ S.length) {slot : Nat}
    (hpos : 0 < slot) (hlow : w.low ≤ slot) (hslot : slot ≤ m + 1) (hnone : valueIn w slot = none) :
    slot = m + 1 := by
  by_contra hne
  rw [h slot hlow, if_pos (by omega), List.getElem?_eq_none_iff] at hnone
  omega

/-- The next slot gets the value for it. -/
theorem Assigned.give (h : Assigned S m w) {v : Value} (hv : S[m]? = some v)
    (hlow : w.low ≤ m + 1) {f : Proposal → Proposal} (hf : ∀ e, (f e).value = some v) :
    Assigned S (m + 1) (w.modify (m + 1) f) := by
  intro t ht
  rw [Window.low_modify] at ht
  rw [valueIn_modify]
  by_cases hslot : t = m + 1
  · rw [if_pos ⟨hslot, hlow⟩, if_pos hslot.le, hslot, Nat.add_sub_cancel, hv, hf]
  · rw [if_neg (fun h => hslot h.1), h t ht]
    by_cases hle : t ≤ m
    · rw [if_pos hle, if_pos (by omega)]
    · rw [if_neg hle, if_neg (by omega)]

/-- A run of proposals from a slot on up to the first without a value continues the assignment. -/
theorem fillFrom_assigned (room slot : Nat) (w : Window Proposal) (queue : List Value) (m : Nat)
    (hm : m ≤ S.length) (hqueue : queue = S.drop m) (hassigned : Assigned S m w)
    (hpos : 0 < slot) (hlow : w.low ≤ slot) (hslot : slot ≤ m + 1) :
    let f := fillFrom room slot w queue
    ∃ m', m ≤ m' ∧ m' ≤ S.length ∧ f.queue = S.drop m' ∧ Assigned S m' f.window ∧
      slot + f.sent.length ≤ m' + 1 ∧ ∀ t v, (t, v) ∈ f.sent → t ≤ m' ∧ IsNth S t v := by
  fun_induction fillFrom room slot w queue generalizing m with
  | case1 slot w queue =>
    exact ⟨m, Nat.le_refl m, hm, hqueue, hassigned, hslot, by simp⟩
  | case2 room slot w window queue _ =>
    exact ⟨m, Nat.le_refl m, hm, hqueue, hassigned.touch slot, hslot, by simp⟩
  | case3 room slot w window value takenFrom own resends queue hget window' rest ih =>
    -- the slot has its value already
    have hvalue : valueIn w slot = some value := by
      rw [← valueIn_touch w slot slot, valueIn, hget]
      rfl
    obtain ⟨hle, hnth⟩ := hassigned.isNth hpos hlow hvalue
    have hassigned' : Assigned S m window' := (hassigned.touch slot).congr
      (Window.low_modify _ _ _).ge fun t _ => valueIn_modify_of_value_eq (by exact fun _ => rfl) t
    obtain ⟨m', hle', hm', hqueue', hwindow', hlength, hsent⟩ := ih m hm hqueue hassigned'
      (Nat.succ_pos slot) (by rw [Window.low_modify, Window.low_touch]; omega) (by omega)
    refine ⟨m', hle', hm', hqueue', hwindow', ?_, fun t v ht => ?_⟩
    · have hlength' : slot + 1 + rest.sent.length ≤ m' + 1 := hlength
      rw [List.length_cons]
      omega
    · rcases List.mem_cons.mp ht with heq | ht
      · cases heq
        exact ⟨hle.trans hle', hnth⟩
      · exact hsent t v ht
  | case4 room slot w window takenFrom own resends value queue hget window' rest ih =>
    -- the slot is the first without a value; it gets the first of the queue
    have hvalue : valueIn w slot = none := by
      rw [← valueIn_touch w slot slot, valueIn, hget]
      rfl
    obtain rfl := hassigned.eq_of_valueIn_eq_none hm hpos hlow hslot hvalue
    have hlt : m < S.length := by
      have h := congrArg List.length hqueue
      rw [List.length_cons, List.length_drop] at h
      omega
    rw [List.drop_eq_getElem_cons hlt] at hqueue
    obtain ⟨rfl, hrest⟩ := List.cons.inj hqueue
    have hnth : S[m]? = some S[m] := List.getElem?_eq_getElem hlt
    have hassigned' : Assigned S (m + 1) window' :=
      (hassigned.touch (m + 1)).give hnth ((Window.low_touch _ _).trans_le hlow) fun _ => rfl
    obtain ⟨m', hle', hm', hqueue', hwindow', hlength, hsent⟩ := ih (m + 1) hlt hrest hassigned'
      (Nat.succ_pos _) (by rw [Window.low_modify, Window.low_touch]; omega) le_rfl
    refine ⟨m', by omega, hm', hqueue', hwindow', ?_, fun t v ht => ?_⟩
    · have hlength' : m + 1 + 1 + rest.sent.length ≤ m' + 1 := hlength
      rw [List.length_cons]
      omega
    · rcases List.mem_cons.mp ht with heq | ht
      · cases heq
        exact ⟨hle', Nat.succ_pos m, hnth⟩
      · exact hsent t v ht
  | case5 room slot w window takenFrom own resends _ =>
    exact ⟨m, Nat.le_refl m, hm, hqueue, hassigned.touch slot, hslot, by simp⟩

/-- Filling the pipeline keeps the order. -/
theorem InOrder.fill (h : InOrder S m p) (hfill : p.fill = .ok (p', out)) :
    ∃ m', m ≤ m' ∧ InOrder S m' p' ∧
      ∀ r t v, Proposed out r t v → t ≤ m' ∧ IsNth S t v := by
  rcases fill_cases hfill with ⟨-, rfl, rfl⟩ | ⟨-, -, room, f, rfl, hf, rfl, rfl⟩
  · refine ⟨m, Nat.le_refl m, h, fun r t v hv => ?_⟩
    obtain ⟨_, _, hsaid⟩ := hv
    exact absurd hsaid not_said_nil
  have hlow := h.low_eq
  have hlt := h.adu_lt
  obtain ⟨m', hle, hm, hqueue, hwindow, hlength, hsent⟩ := fillFrom_assigned room p.nextSlot
    p.window p.queue m h.le_length h.queue_eq h.assigned (by omega) (by omega) h.nextSlot_le
  refine ⟨m', hle, ⟨hf.low_eq.trans hlow, h.adu_le.trans hle,
    hlt.trans_le (Nat.le_add_right _ _), hlength, hm, hqueue, hwindow,
    fun rep hrep => (h.reports rep hrep).imp_left (·.trans hle)⟩, fun r t v hv => ?_⟩
  obtain ⟨_, _, o, ho, heq⟩ := hv
  obtain ⟨⟨slot, value⟩, hmem, rfl⟩ := List.mem_map.mp ho
  cases heq
  exact hsent _ _ hmem

/-- Taking over votes for its own values changes no value. -/
theorem InOrder.seeded (h : InOrder S m p) : Assigned S m p.seeded := by
  have hseeded : ∀ t, valueIn p.seeded t = valueIn p.window t ∨
      ∃ rep ∈ p.reports, rep.slot = t ∧ valueIn p.seeded t = some rep.value := by
    intro t
    refine List.foldlRecOn (motive := fun w => valueIn w t = valueIn p.window t ∨
      ∃ rep ∈ p.reports, rep.slot = t ∧ valueIn w t = some rep.value) _ _ (Or.inl rfl) ?_
    intro w hw rep hrep
    unfold seed
    split
    · exact hw
    rw [valueIn_modify]
    split
    · rename_i hslot
      split
      · exact Or.inr ⟨rep, hrep, hslot.1.symm, rfl⟩
      · rwa [value_getD]
    · exact hw
  intro t ht
  rw [low_seeded] at ht
  rcases hseeded t with hsame | ⟨rep, hrep, rfl, hvalue⟩
  · rw [hsame, h.assigned t ht]
  · obtain ⟨hle, hnth⟩ := h.reports rep hrep
    rw [hvalue, if_pos hle, hnth.2]

theorem InOrder.lastReported_le (h : InOrder S m p) : p.lastReported ≤ m := by
  rcases lastReported_cases p with heq | ⟨rep, hrep, heq⟩
  · exact heq.trans_le h.adu_le
  · exact heq ▸ (h.reports rep hrep).1

/-- Up to the last reported slot there are values already. -/
theorem InOrder.exists_valueIn_seeded (h : InOrder S m p) {t : Nat} (hlow : p.seeded.low ≤ t)
    (ht : t ≤ p.lastReported) : ∃ v, valueIn p.seeded t = some v := by
  have hm := h.lastReported_le
  have hlength := h.le_length
  have hpos : 0 < t := by
    rw [low_seeded, h.low_eq] at hlow
    omega
  rw [h.seeded t hlow, if_pos (by omega)]
  exact ⟨_, List.getElem?_eq_getElem (by omega)⟩

theorem InOrder.holesFound_eq_zero (h : InOrder S m p) : p.holesFound = 0 := by
  refine List.countP_eq_zero.mpr fun t ht hhole => ?_
  have ht := List.mem_range'_1.mp ht
  rw [Bool.and_eq_true, decide_eq_true_eq] at hhole
  obtain ⟨v, hv⟩ := h.exists_valueIn_seeded hhole.1 (by omega)
  have hnone := hhole.2
  rw [show (p.seeded.get? t).bind Proposal.value = some v from hv] at hnone
  cases hnone

/-- With its promises the proposer goes on as before: it loses no value, and fills no hole. -/
theorem InOrder.begun (h : InOrder S m p) {ownBefore : List (Nat × Value)}
    (hown : p.ownValues = .ok ownBefore) : InOrder S m (p.begun ownBefore) := by
  have hlow := h.low_eq
  have hadu := h.adu_le
  have hseeded := h.seeded
  have hdisplaced : p.displaced ownBefore = [] := by
    rw [displaced, List.filterMap_eq_nil_iff]
    rintro ⟨slot, value⟩ hmem
    obtain ⟨hlt, hvalue⟩ := valueAt_of_mem_ownValues hown hmem
    have hkept : valueIn p.seeded slot = some value := by
      rw [hseeded slot (by rw [low_seeded]; omega), ← h.assigned slot (by omega)]
      exact hvalue
    obtain ⟨e, he, hevalue⟩ := Option.bind_eq_some_iff.mp hkept
    simp [holds, he, hevalue]
  refine ⟨(low_begun p ownBefore).trans hlow, h.adu_le, Nat.lt_succ_self p.adu,
    Nat.succ_le_succ h.adu_le, h.le_length, ?_, fun t ht => ?_, h.reports⟩
  · show p.displaced ownBefore ++ p.queue = S.drop m
    rw [hdisplaced, List.nil_append, h.queue_eq]
  · have ht' : p.seeded.low ≤ t := by
      rw [low_begun] at ht
      rw [low_seeded]
      exact ht
    have hvalue : valueIn (p.begun ownBefore).window t = valueIn p.seeded t := by
      show valueIn (plug (restore p.seeded ownBefore) p.adu p.lastReported) t = _
      rw [valueIn_plug, valueIn_restore]
      split
      · rename_i hc
        obtain ⟨v, hv⟩ := h.exists_valueIn_seeded ht' hc.2.1
        rw [hv, Option.getD_some]
      · rfl
    rw [hvalue, hseeded t ht']

/-- Hearing that its values were delivered takes none of them back. -/
theorem InOrder.advanced (h : InOrder S m p) {adu : Nat} {decided : List (Nat × Value)}
    (habove : p.adu < adu) (hadu : adu ≤ m)
    (hdecided : ∀ d ∈ decided, IsNth S d.1 d.2) : InOrder S m (p.advanced adu decided) := by
  have hlow := h.low_eq
  have hnext := h.nextSlot_le
  have hlost : p.lost adu decided = [] := by
    rw [lost, List.filterMap_eq_nil_iff]
    rintro ⟨slot, value⟩ hmem
    dsimp only
    split
    · rename_i hslot
      rw [Bool.and_eq_true, decide_eq_true_eq, decide_eq_true_eq] at hslot
      unfold lostTo
      split
      · rename_i mine _ _ hget
        have hmine : valueIn p.window slot = some mine := by
          rw [valueIn, hget]
          rfl
        have hnth := (h.assigned.isNth (by omega) (by omega) hmine).2
        rw [if_pos (hnth.unique (hdecided _ hmem))]
      · rfl
    · rfl
  refine ⟨?_, hadu, ?_, ?_, h.le_length, ?_, fun t ht => ?_, h.reports⟩
  · simp only [Proposer.advanced, Window.low_raise]
    omega
  · simp only [Proposer.advanced]
    split <;> omega
  · simp only [Proposer.advanced]
    split <;> omega
  · show p.lost adu decided ++ p.queue = S.drop m
    rw [hlost, List.nil_append, h.queue_eq]
  · simp only [Proposer.advanced, Window.low_raise] at ht ⊢
    rw [valueIn_raise, if_neg (by omega), h.assigned t (by omega)]

/-- The order speaks of the window, the queue and the slots only. -/
theorem InOrder.congr (h : InOrder S m p) (hwindow : p'.window = p.window) (hadu : p'.adu = p.adu)
    (hnext : p'.nextSlot = p.nextSlot) (hqueue : p'.queue = p.queue)
    (hreports : ∀ rep ∈ p'.reports, rep.slot ≤ m ∧ IsNth S rep.slot rep.value) :
    InOrder S m p' where
  low_eq := by rw [hwindow, hadu, h.low_eq]
  adu_le := hadu ▸ h.adu_le
  adu_lt := by rw [hadu, hnext]; exact h.adu_lt
  nextSlot_le := hnext ▸ h.nextSlot_le
  le_length := h.le_length
  queue_eq := hqueue.trans h.queue_eq
  assigned := hwindow ▸ h.assigned
  reports := hreports

/-- A value that is taken waits behind the others. -/
theorem InOrder.submit (h : InOrder S m p) (value : Value) :
    InOrder (S ++ [value]) m { p with queue := p.queue ++ [value] } where
  low_eq := h.low_eq
  adu_le := h.adu_le
  adu_lt := h.adu_lt
  nextSlot_le := h.nextSlot_le
  le_length := h.le_length.trans (by simp)
  queue_eq := by rw [h.queue_eq, List.drop_append_of_le_length h.le_length]
  assigned t ht := by
    have hlow := h.low_eq
    have hle := h.le_length
    have ht' : p.window.low ≤ t := ht
    rw [h.assigned t ht']
    split
    · rw [List.getElem?_append_left (by omega)]
    · rfl
  reports rep hrep := (h.reports rep hrep).imp_right (·.append [value])

/-- One more promise that reports its own values. -/
theorem InOrder.gather (h : InOrder S m p) {msg : Promise} (topCounter : Nat)
    (hmsg : ∀ rep ∈ msg.reports, rep.slot ≤ m ∧ IsNth S rep.slot rep.value) :
    InOrder S m { p with topCounter, promises := recordPromise p.promises msg } := by
  refine h.congr rfl rfl rfl rfl fun rep hrep => ?_
  obtain ⟨msg', hmsg', hrep'⟩ := List.mem_flatMap.mp hrep
  rcases mem_recordPromise hmsg' with rfl | hmsg'
  · exact hmsg rep hrep'
  · exact h.reports rep (List.mem_flatMap.mpr ⟨msg', hmsg', hrep'⟩)

/-- **The order of submissions is kept** in every step, if the votes and deliveries that the proposer
hears of are of its own values. What it proposes are values for their slots. -/
theorem InOrder.act (h : InOrder S m p) {x : Input} {o : Output}
    (hmsg : ∀ msg, x = .promise msg →
      ∀ rep ∈ msg.reports, rep.slot ≤ m ∧ IsNth S rep.slot rep.value)
    (hnote : ∀ adu decided, x = .noteDelivered adu decided →
      adu ≤ m ∧ ∀ d ∈ decided, IsNth S d.1 d.2)
    (hact : p.act x = .ok (p', o)) :
    ∃ m', m ≤ m' ∧ InOrder (S ++ o.taken.toList) m' p' ∧
      ∀ r t v, Proposed o.outbound r t v → t ≤ m' ∧ IsNth (S ++ o.taken.toList) t v := by
  have hnone : ∀ {r t v} {P : Prop}, Proposed [] r t v → P := by
    rintro r t v P ⟨_, _, hsaid⟩
    exact absurd hsaid not_said_nil
  cases acts_of_act h.low_eq hact with
  | quiet same =>
    rw [Option.toList_none, List.append_nil]
    refine ⟨m, Nat.le_refl m, h.congr same.window_eq same.adu_eq same.nextSlot_eq same.queue_eq ?_,
      fun r t v hv => hnone hv⟩
    unfold Proposer.reports
    rcases same.phase_cases with ⟨-, hpromises⟩ | ⟨-, hpromises⟩
    · rw [hpromises]
      simp
    · rw [hpromises]
      exact h.reports
  | ask cause asks =>
    rw [Option.toList_none, List.append_nil]
    refine ⟨m, Nat.le_refl m, ⟨?_, ?_, ?_, ?_, h.le_length, ?_, ?_, ?_⟩, fun r t v hv => ?_⟩
    · rw [asks.low_eq, asks.adu_eq, h.low_eq]
    · exact asks.adu_eq ▸ h.adu_le
    · rw [asks.adu_eq, asks.nextSlot_eq]
      exact h.adu_lt
    · exact asks.nextSlot_eq ▸ h.nextSlot_le
    · exact asks.queue_eq.trans h.queue_eq
    · exact h.assigned.congr asks.low_eq.ge fun t _ => asks.valueAt_eq t
    · rw [Proposer.reports, asks.promises_eq]
      simp
    · obtain ⟨_, _, hsaid⟩ := hv
      rw [asks.out_eq, said_singleton, Outgoing.message] at hsaid
      cases hsaid
  | @gather msg topCounter =>
    rw [Option.toList_none, List.append_nil]
    exact ⟨m, Nat.le_refl m, h.gather topCounter (hmsg msg rfl), fun r t v hv => hnone hv⟩
  | fill readies fills =>
    cases readies with
    | @begins msg topCounter ownBefore _ _ _ own =>
      rw [Option.toList_none, List.append_nil]
      exact ((h.gather topCounter (hmsg msg rfl)).begun own).fill fills
    | submits value => exact (h.submit value).fill fills
    | advances adu decided above =>
      rw [Option.toList_none, List.append_nil]
      obtain ⟨hadu, hdecided⟩ := hnote adu decided rfl
      exact (h.advanced above hadu hdecided).fill fills
  | @resend _ window phase_eq recounted =>
    rw [Option.toList_none, List.append_nil]
    refine ⟨m, Nat.le_refl m, ⟨recounted.low_eq.trans h.low_eq, h.adu_le, h.adu_lt, h.nextSlot_le,
      h.le_length, h.queue_eq, h.assigned.congr recounted.low_eq.ge fun t _ =>
        recounted.valueIn_eq t, h.reports⟩,
      fun r t v hv => ?_⟩
    obtain ⟨_, _, o, ho, heq⟩ := hv
    obtain ⟨slot, value, hadu, -, hvalue, rfl⟩ := of_mem_resent ho
    cases heq
    exact h.assigned.isNth (Nat.zero_lt_of_lt hadu) (h.low_eq.trans_le hadu) hvalue

end Proposer

end ReplicatedLog
