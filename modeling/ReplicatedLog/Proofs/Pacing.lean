import ReplicatedLog.Proofs.Leading

/-!
# The pace of a proposer

What a proposer is set up with does not change (`Proposer.SetUp`), so it goes by the same pace in
every step: it proposes for at most `alpha` slots beyond those that it takes for decided
(`Proposer.Paced`). When it fills the pipeline, it uses all the room there is, or runs out of values
(`Proposer.Saturated`).
-/

namespace ReplicatedLog

namespace Proposer

/-! ### What does not change -/

/-- The second is the first later on: what a proposer is set up with. -/
structure SetUp (p p' : Proposer) : Prop where
  /-- It belongs to the same replica. -/
  id_eq : p'.id = p.id
  /-- It needs as many promises. -/
  quorum_eq : p'.quorum = p.quorum
  /-- It may propose as far ahead. -/
  alpha_eq : p'.alpha = p.alpha
  /-- It sends again as often. -/
  threshold_eq : p'.resendThreshold = p.resendThreshold
  /-- It goes by the same rules. -/
  mode_eq : p'.mode = p.mode

variable {p p' : Proposer} {out : List Outgoing}

theorem SetUp.refl (p : Proposer) : SetUp p p := ⟨rfl, rfl, rfl, rfl, rfl⟩

theorem SetUp.trans {p'' : Proposer} (h : SetUp p p') (h' : SetUp p' p'') : SetUp p p'' where
  id_eq := h'.id_eq.trans h.id_eq
  quorum_eq := h'.quorum_eq.trans h.quorum_eq
  alpha_eq := h'.alpha_eq.trans h.alpha_eq
  threshold_eq := h'.threshold_eq.trans h.threshold_eq
  mode_eq := h'.mode_eq.trans h.mode_eq

/-- Whom an input tells the proposer to trust, if it tells that. -/
def Input.trusted? : Input → Option Nat
  | .trust leader => some leader
  | _ => none

/-- A proposer keeps what it was set up with, its view of the membership until it gets a new one, and
the leader until it is told to trust another. -/
theorem setUp_of_act {x : Input} {o : Output} (h : p.act x = .ok (p', o)) :
    SetUp p p' ∧ (p'.epochs = p.epochs ∨ x = .setEpochs p'.epochs) ∧
      p'.leader = x.trusted?.or p.leader := by
  cases x with
  | trust leader =>
    obtain ⟨⟨p₁, outbound⟩, htrust, hret⟩ := Checked.bind_eq_ok_iff.mp h
    cases hret
    unfold trust at htrust
    dsimp only at htrust
    split at htrust
    · cases htrust
      exact ⟨⟨rfl, rfl, rfl, rfl, rfl⟩, Or.inl rfl, rfl⟩
    split at htrust
    · cases htrust
      exact ⟨⟨rfl, rfl, rfl, rfl, rfl⟩, Or.inl rfl, rfl⟩
    · obtain ⟨_, _, rfl⟩ := exists_of_askPromises htrust
      exact ⟨⟨rfl, rfl, rfl, rfl, rfl⟩, Or.inl rfl, rfl⟩
  | promise m =>
    obtain ⟨⟨p₁, outbound⟩, hpromise, hret⟩ := Checked.bind_eq_ok_iff.mp h
    cases hret
    obtain ⟨topCounter, ⟨-, rfl, -⟩ | ⟨-, -, ⟨-, rfl, -⟩ | ⟨-, hbegin⟩⟩⟩ :=
      promise_cases hpromise
    · exact ⟨⟨rfl, rfl, rfl, rfl, rfl⟩, Or.inl rfl, rfl⟩
    · exact ⟨⟨rfl, rfl, rfl, rfl, rfl⟩, Or.inl rfl, rfl⟩
    · obtain ⟨ownBefore, -, hfill⟩ := beginProposing_cases hbegin
      obtain ⟨_, _, _, rfl⟩ := exists_of_fill hfill
      exact ⟨⟨rfl, rfl, rfl, rfl, rfl⟩, Or.inl rfl, rfl⟩
  | submit value =>
    obtain ⟨⟨p₁, result⟩, hsubmit, hret⟩ := Checked.bind_eq_ok_iff.mp h
    rcases submit_cases hsubmit with ⟨rfl, fault, rfl⟩ | ⟨-, outbound, rfl, hfill⟩
    · cases hret
      exact ⟨.refl _, Or.inl rfl, rfl⟩
    · cases hret
      obtain ⟨_, _, _, rfl⟩ := exists_of_fill hfill
      exact ⟨⟨rfl, rfl, rfl, rfl, rfl⟩, Or.inl rfl, rfl⟩
  | hear round =>
    cases h
    exact ⟨⟨rfl, rfl, rfl, rfl, rfl⟩, Or.inl rfl, rfl⟩
  | noteDelivered adu decided =>
    obtain ⟨⟨p₁, outbound⟩, hnote, hret⟩ := Checked.bind_eq_ok_iff.mp h
    cases hret
    rcases noteDelivered_cases hnote with ⟨-, rfl, -⟩ | ⟨-, -, hfill⟩
    · exact ⟨.refl _, Or.inl rfl, rfl⟩
    · obtain ⟨_, _, _, rfl⟩ := exists_of_fill hfill
      exact ⟨⟨rfl, rfl, rfl, rfl, rfl⟩, Or.inl rfl, rfl⟩
  | retry =>
    obtain ⟨⟨p₁, outbound⟩, hretry, hret⟩ := Checked.bind_eq_ok_iff.mp h
    cases hret
    unfold retry at hretry
    split at hretry
    · obtain ⟨_, _, rfl⟩ := exists_of_askPromises hretry
      exact ⟨⟨rfl, rfl, rfl, rfl, rfl⟩, Or.inl rfl, rfl⟩
    · cases hretry
      exact ⟨.refl _, Or.inl rfl, rfl⟩
  | checkProgress =>
    obtain ⟨⟨p₁, outbound⟩, hcheck, hret⟩ := Checked.bind_eq_ok_iff.mp h
    cases hret
    cases checks_of_checkProgress hcheck with
    | rests => exact ⟨.refl _, Or.inl rfl, rfl⟩
    | notes => exact ⟨⟨rfl, rfl, rfl, rfl, rfl⟩, Or.inl rfl, rfl⟩
    | renews _ _ _ asks =>
      obtain ⟨_, _, rfl⟩ := exists_of_askPromises asks
      exact ⟨⟨rfl, rfl, rfl, rfl, rfl⟩, Or.inl rfl, rfl⟩
    | resends => exact ⟨⟨rfl, rfl, rfl, rfl, rfl⟩, Or.inl rfl, rfl⟩
  | setEpochs epochs =>
    cases h
    exact ⟨⟨rfl, rfl, rfl, rfl, rfl⟩, Or.inr rfl, rfl⟩

theorem setUp_of_runs {start : Proposer} {past : List (Turn Proposer Input Output)}
    (h : Runs act start p past) : SetUp start p := by
  induction h with
  | nil => exact .refl start
  | step _ act_eq ih => exact ih.trans (setUp_of_act act_eq).1

/-! ### How far ahead it proposes -/

theorem length_sent_fillFrom_le (room slot : Nat) (w : Window Proposal) (queue : List Value) :
    (fillFrom room slot w queue).sent.length ≤ room := by
  fun_induction fillFrom room slot w queue with
  | case1 => exact Nat.le_refl 0
  | case2 => exact Nat.zero_le _
  | case3 _ _ _ _ _ _ _ _ _ _ _ _ ih => exact Nat.succ_le_succ ih
  | case4 _ _ _ _ _ _ _ _ _ _ _ _ ih => exact Nat.succ_le_succ ih
  | case5 => exact Nat.zero_le _

/-- In phase two, the pipeline has room up to `alpha` slots beyond the decided ones; the end of the
room and the next slot fit in words. -/
theorem fill_eq_ok_iff (hlead : p.isLeader = true) (hphase : p.phase = .two) :
    p.fill = .ok (p', out) ↔
      let f := fillFrom (p.adu + p.alpha + 1 - p.nextSlot) p.nextSlot p.window p.queue
      p.adu + p.alpha < Word.size ∧ p.nextSlot + f.sent.length < Word.size ∧
        p' = { p with window := f.window, queue := f.queue,
                      nextSlot := p.nextSlot + f.sent.length } ∧
        out = f.sent.map fun (slot, value) => p.proposal slot value := by
  unfold fill
  rw [hlead, hphase]
  constructor
  · intro h
    obtain ⟨last, hlast, h⟩ := Checked.bind_eq_ok_iff.mp h
    obtain ⟨next, hnext, h⟩ := Checked.bind_eq_ok_iff.mp h
    obtain ⟨hlt, rfl⟩ := Word.fit_eq_ok_iff.mp hlast
    obtain ⟨hlt', rfl⟩ := Word.fit_eq_ok_iff.mp hnext
    cases h
    exact ⟨hlt, hlt', rfl, rfl⟩
  · rintro ⟨hlast, hnext, rfl, rfl⟩
    refine Checked.bind_eq_ok_iff.mpr ⟨_, Word.fit_eq_ok_iff.mpr ⟨hlast, rfl⟩, ?_⟩
    exact Checked.bind_eq_ok_iff.mpr ⟨_, Word.fit_eq_ok_iff.mpr ⟨hnext, rfl⟩, rfl⟩

/-- The pipeline is full, or there is no value for the next slot. -/
def Saturated (p : Proposer) : Prop :=
  p.adu + p.alpha < p.nextSlot ∨ p.queue = [] ∧ p.valueAt p.nextSlot = none

/-- A run of proposals ends because there is no more room or no more value. -/
theorem fillFrom_saturates (room slot : Nat) (w : Window Proposal) (queue : List Value)
    (hlow : w.low ≤ slot) :
    let f := fillFrom room slot w queue
    f.sent.length = room ∨ f.queue = [] ∧ valueIn f.window (slot + f.sent.length) = none := by
  fun_induction fillFrom room slot w queue with
  | case1 => exact Or.inl rfl
  | case2 room slot w window queue hnone =>
    -- the slot was touched
    rw [Window.get?_touch, if_pos ⟨hlow, Nat.le_refl slot⟩] at hnone
    cases hnone
  | case3 room slot w window value takenFrom own resends queue hget window' rest ih =>
    have hlow' : window'.low ≤ slot + 1 := by
      rw [Window.low_modify, Window.low_touch]
      omega
    refine (ih hlow').imp (fun h => ?_) fun h => ⟨h.1, ?_⟩
    · rw [List.length_cons]
      exact congrArg Nat.succ h
    · rw [List.length_cons, Nat.add_comm rest.sent.length, ← Nat.add_assoc]
      exact h.2
  | case4 room slot w window takenFrom own resends value queue hget window' rest ih =>
    have hlow' : window'.low ≤ slot + 1 := by
      rw [Window.low_modify, Window.low_touch]
      omega
    refine (ih hlow').imp (fun h => ?_) fun h => ⟨h.1, ?_⟩
    · rw [List.length_cons]
      exact congrArg Nat.succ h
    · rw [List.length_cons, Nat.add_comm rest.sent.length, ← Nat.add_assoc]
      exact h.2
  | case5 room slot w window takenFrom own resends hget =>
    refine Or.inr ⟨rfl, ?_⟩
    rw [List.length_nil, Nat.add_zero, valueIn, hget]
    rfl

/-- A proposer in phase two can do no more once it has filled the pipeline. -/
theorem saturated_of_fill (hlead : p.isLeader = true) (hphase : p.phase = .two)
    (hlow : p.window.low = p.adu + 1) (hlt : p.adu < p.nextSlot) (hfill : p.fill = .ok (p', out)) :
    p'.Saturated := by
  obtain ⟨-, -, rfl, -⟩ := (fill_eq_ok_iff hlead hphase).mp hfill
  apply (fillFrom_saturates (p.adu + p.alpha + 1 - p.nextSlot) p.nextSlot p.window p.queue
    (by omega)).imp_left
  intro hroom
  show p.adu + p.alpha < p.nextSlot + _
  omega

/-- The proposer `i` has never proposed more than `alpha` slots beyond those that it takes for
decided. -/
structure Paced (alpha : Nat) (sent : List Outgoing) (i : Nat) (p : Proposer) : Prop where
  /-- It is set up to go that far ahead. -/
  alpha_eq : p.alpha = alpha
  /-- It is not to propose for a slot beyond the pipeline. -/
  nextSlot_le : p.nextSlot ≤ p.adu + alpha + 1
  /-- It has not proposed for one. -/
  slot_le : ∀ m, Said sent (.accept m) → m.sender = i → m.slot ≤ p.adu + alpha

variable {alpha i : Nat} {sent : List Outgoing}

theorem paced_start {p : Proposer} (i : Nat) (halpha : p.alpha = alpha) (hnext : p.nextSlot = 1) :
    Paced alpha [] i p where
  alpha_eq := halpha
  nextSlot_le := by omega
  slot_le m hm := absurd hm not_said_nil

/-- What says nothing new, or is said by others, changes no pace. -/
theorem Paced.append (h : Paced alpha sent i p)
    (hout : ∀ m, Said out (.accept m) → m.sender ≠ i) : Paced alpha (sent ++ out) i p where
  alpha_eq := h.alpha_eq
  nextSlot_le := h.nextSlot_le
  slot_le m hm hi := by
    rcases said_append.mp hm with hm | hm
    · exact h.slot_le m hm hi
    · exact absurd hi (hout m hm)

theorem Paced.congr (h : Paced alpha sent i p) (halpha : p'.alpha = p.alpha)
    (hadu : p.adu ≤ p'.adu) (hnext : p'.nextSlot ≤ p'.adu + alpha + 1) : Paced alpha sent i p' where
  alpha_eq := halpha.trans h.alpha_eq
  nextSlot_le := hnext
  slot_le m hm hi := (h.slot_le m hm hi).trans (by omega)

/-- The pipeline is filled no further than it goes. -/
theorem Paced.fill (h : Paced alpha sent i p) (hfill : p.fill = .ok (p', out)) :
    Paced alpha (sent ++ out) i p' := by
  by_cases hleads : p.isLeader = true ∧ p.phase = .two
  · obtain ⟨-, -, rfl, rfl⟩ := (fill_eq_ok_iff hleads.1 hleads.2).mp hfill
    have hle := length_sent_fillFrom_le (p.adu + p.alpha + 1 - p.nextSlot) p.nextSlot p.window p.queue
    have hcontinues := fillFrom_continues (p.adu + p.alpha + 1 - p.nextSlot) p.nextSlot p.window
      p.queue
    generalize fillFrom (p.adu + p.alpha + 1 - p.nextSlot) p.nextSlot p.window p.queue = f at *
    have halpha := h.alpha_eq
    have hnext := h.nextSlot_le
    refine ⟨halpha, by dsimp only; omega, fun m hm hi => ?_⟩
    rcases said_append.mp hm with hm | ⟨o, ho, heq⟩
    · exact h.slot_le m hm hi
    · obtain ⟨⟨slot, value⟩, hmem, rfl⟩ := List.mem_map.mp ho
      cases heq
      have hslot := (hcontinues.mem_slots hmem).2
      dsimp only
      omega
  · rcases fill_cases hfill with ⟨-, rfl, rfl⟩ | ⟨hlead, hphase, -⟩
    · rwa [List.append_nil]
    · exact absurd ⟨hlead, hphase⟩ hleads

/-- **The pace is kept** in every step. -/
theorem Paced.act (h : Paced alpha sent i p) (hlow : p.window.low = p.adu + 1) {x : Input}
    {o : Output} (hact : p.act x = .ok (p', o)) : Paced alpha (sent ++ o.outbound) i p' := by
  have halpha := (setUp_of_act hact).1.alpha_eq
  have hnext := h.nextSlot_le
  cases acts_of_act hlow hact with
  | quiet same =>
    rw [List.append_nil]
    exact h.congr halpha same.adu_eq.ge (by rw [same.nextSlot_eq, same.adu_eq]; exact hnext)
  | ask cause asks =>
    refine (h.congr halpha asks.adu_eq.ge ?_).append fun m hm => ?_
    · rw [asks.nextSlot_eq, asks.adu_eq]
      exact hnext
    · rw [asks.out_eq, said_singleton, Outgoing.message] at hm
      cases hm
  | gather =>
    rw [List.append_nil]
    exact h.congr rfl (Nat.le_refl _) hnext
  | fill readies fills =>
    refine Paced.fill ?_ fills
    cases readies with
    | begins => exact h.congr rfl (Nat.le_refl p.adu) (by simp only [begun]; omega)
    | submits => exact h.congr rfl (Nat.le_refl p.adu) hnext
    | advances adu decided above =>
      refine h.congr rfl above.le ?_
      simp only [advanced]
      split <;> omega
  | resend =>
    refine ⟨h.alpha_eq, hnext, fun m hm hi => ?_⟩
    rcases said_append.mp hm with hm | ⟨o, ho, heq⟩
    · exact h.slot_le m hm hi
    · obtain ⟨slot, value, -, hslot, -, rfl⟩ := of_mem_resent ho
      cases heq
      dsimp only
      omega

end Proposer

end ReplicatedLog
