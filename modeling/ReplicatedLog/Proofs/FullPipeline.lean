import ReplicatedLog.Proofs.Mandate

/-!
# The pipeline of a proposer

Whatever happens to a proposer, the slots beyond the decided ones for which it has values follow each
other without a hole (`Proposer.Unbroken`). The values come from many sides: reported votes are taken
over, the holes between them become no-ops, values of its own stay from earlier rounds or come from the
queue; and hearing of deliveries may move the proposer on beyond all slots that it knows of. None of
this leaves a hole, or the log would stand still at it.

While it proposes, it uses all the room there is, or has no value left (`Proposer.Saturated`). Together
this is `full_pipeline`.
-/

namespace ReplicatedLog

namespace Proposer

variable {p p' q : Proposer} {x : Input} {o : Output} {out : List Outgoing} {past : Past}
  {last : Nat}

/-! ### No holes -/

/-- Beyond the decided slots the proposer has values for the slots up to `last`, and for no others. -/
structure Unbroken (last : Nat) (p : Proposer) : Prop where
  /-- There are no values for slots beyond the decided ones if `last` is decided itself. -/
  adu_le : p.adu ≤ last
  /-- The slots with values are those up to `last`. -/
  isSome_iff : ∀ t, p.adu < t → ((p.valueAt t).isSome = true ↔ t ≤ last)
  /-- What it proposed for in this round are such slots. -/
  nextSlot_le : p.phase = .two → p.nextSlot ≤ last + 1

theorem Unbroken.congr (h : p.Unbroken last) (hadu : p'.adu = p.adu)
    (hvalue : ∀ t, p'.valueAt t = p.valueAt t)
    (hphase : p'.phase = .two → p.phase = .two ∧ p'.nextSlot = p.nextSlot) :
    p'.Unbroken last := by
  constructor
  · exact hadu ▸ h.adu_le
  · intro t ht
    rw [hvalue]
    exact h.isSome_iff t (hadu ▸ ht)
  · intro htwo
    obtain ⟨hbefore, hnext⟩ := hphase htwo
    exact hnext ▸ h.nextSlot_le hbefore

/-- A slot has a value after the votes were taken over exactly if it had one, or there are reports for
slots as high. -/
theorem isSome_valueAt_begun (ownBefore : List (Nat × Value)) (hlow : p.window.low = p.adu + 1)
    {t : Nat} (ht : p.adu < t) : ((p.begun ownBefore).valueAt t).isSome = true ↔
      t ≤ p.lastReported ∨ (p.valueAt t).isSome = true := by
  rw [valueAt_begun_eq ownBefore hlow ht]
  split
  · rename_i hle
    simp [hle]
  · rename_i hlt
    have hne : ∀ r ∈ p.reports, r.slot ≠ t := by
      rintro r hr rfl
      exact hlt (slot_le_lastReported hr)
    rw [valueIn_seeded_of_ne hne]
    simp [hlt]

/-- Beginning to propose leaves no holes below the reports. -/
theorem Unbroken.begun (h : p.Unbroken last) (hlow : p.window.low = p.adu + 1)
    (ownBefore : List (Nat × Value)) :
    (p.begun ownBefore).Unbroken (max last p.lastReported) := by
  have hle := h.adu_le
  constructor
  · exact hle.trans (le_max_left _ _)
  · intro t ht
    rw [isSome_valueAt_begun ownBefore hlow ht, h.isSome_iff t ht]
    omega
  · intro _
    show p.adu + 1 ≤ _
    omega

/-- Hearing of deliveries may go beyond all slots with values. -/
theorem Unbroken.advanced (h : p.Unbroken last) {adu : Nat} (habove : p.adu < adu)
    (decided : List (Nat × Value)) : (p.advanced adu decided).Unbroken (max last adu) := by
  constructor
  · exact le_max_right _ _
  · intro t (ht : adu < t)
    rw [valueAt_advanced p decided ht, h.isSome_iff t (habove.trans ht)]
    omega
  · intro htwo
    have hnext := h.nextSlot_le htwo
    simp only [Proposer.advanced]
    split <;> omega

theorem Filled.Continues.isSome_iff {w : Window Proposal} {slot : Nat} {f : Filled}
    (h : f.Continues w slot) (t : Nat) : (valueIn f.window t).isSome = true ↔
      (slot ≤ t ∧ t < slot + f.sent.length) ∨ (valueIn w t).isSome = true := by
  by_cases ht : slot ≤ t ∧ t < slot + f.sent.length
  · have hmem : t ∈ f.sent.map Prod.fst := by rwa [h.slots, List.mem_range'_1]
    obtain ⟨⟨_, v⟩, hin, rfl⟩ := List.mem_map.mp hmem
    simp [(h.value_of_sent _ v hin).1, ht]
  · rw [h.value_eq t (by omega)]
    simp [ht]

/-- Filling the pipeline goes on where the values end, or before. -/
theorem Unbroken.fill (h : p.Unbroken last) (hfill : p.fill = .ok (p', out)) :
    ∃ last', p'.Unbroken last' := by
  rcases fill_cases hfill with ⟨-, rfl, -⟩ | ⟨-, htwo, room, f, -, hf, rfl, -⟩
  · exact ⟨last, h⟩
  have hle := h.adu_le
  have hnext := h.nextSlot_le htwo
  refine ⟨max last (p.nextSlot + f.sent.length - 1), ?_, fun t ht => ?_, fun _ => ?_⟩
  · exact hle.trans (le_max_left _ _)
  · have hiff := h.isSome_iff t ht
    rw [valueAt] at hiff ⊢
    rw [hf.isSome_iff, hiff]
    omega
  · show p.nextSlot + f.sent.length ≤ _
    omega

/-- **No step leaves a hole.** -/
theorem Unbroken.act (h : p.Unbroken last) (hlow : p.window.low = p.adu + 1)
    (hact : p.act x = .ok (p', o)) : ∃ last', p'.Unbroken last' := by
  cases acts_of_act hlow hact with
  | quiet same =>
    refine ⟨last, h.congr same.adu_eq (fun t => by rw [valueAt, same.window_eq, valueAt]) ?_⟩
    intro htwo
    rcases same.phase_cases with ⟨hidle, -⟩ | ⟨heq, -⟩
    · rw [hidle] at htwo
      cases htwo
    · exact ⟨heq ▸ htwo, same.nextSlot_eq⟩
  | ask _ asks =>
    refine ⟨last, h.congr asks.adu_eq asks.valueAt_eq fun htwo => ?_⟩
    rw [asks.phase_eq] at htwo
    cases htwo
  | gather => exact ⟨last, h.congr rfl (fun _ => rfl) fun htwo => ⟨htwo, rfl⟩⟩
  | fill readies fills =>
    cases readies with
    | @begins m topCounter ownBefore =>
      have hgathered : Unbroken last
          { p with topCounter, promises := recordPromise p.promises m } :=
        h.congr rfl (fun _ => rfl) fun htwo => ⟨htwo, rfl⟩
      exact (hgathered.begun hlow ownBefore).fill fills
    | submits value =>
      have hqueued : Unbroken last { p with queue := p.queue ++ [value] } :=
        h.congr rfl (fun _ => rfl) fun htwo => ⟨htwo, rfl⟩
      exact hqueued.fill fills
    | advances adu decided above => exact (h.advanced above decided).fill fills
  | resend _ recounted =>
    exact ⟨last, h.congr rfl recounted.valueIn_eq fun htwo => ⟨htwo, rfl⟩⟩

/-! ### No room left unused -/

theorem Saturated.congr (h : p.Saturated) (hadu : p'.adu = p.adu) (halpha : p'.alpha = p.alpha)
    (hnext : p'.nextSlot = p.nextSlot) (hqueue : p'.queue = p.queue)
    (hvalue : ∀ t, p'.valueAt t = p.valueAt t) : p'.Saturated := by
  unfold Saturated
  rw [hadu, halpha, hnext, hqueue, hvalue]
  exact h

/-- **No step of a proposer in phase two leaves room unused**, unless there is no value left. -/
theorem saturated_of_act (hlow : p.window.low = p.adu + 1) (hlt : p.adu < p.nextSlot)
    (hsaturated : p.phase = .two → p.Saturated) (hact : p.act x = .ok (p', o))
    (hleads : p'.isLeader = true) (htwo : p'.phase = .two) : p'.Saturated := by
  have halpha := (setUp_of_act hact).1.alpha_eq
  cases acts_of_act hlow hact with
  | quiet same =>
    rcases same.phase_cases with ⟨hidle, -⟩ | ⟨heq, -⟩
    · rw [hidle] at htwo
      cases htwo
    · exact (hsaturated (heq ▸ htwo)).congr same.adu_eq halpha same.nextSlot_eq same.queue_eq
        fun t => by rw [valueAt, same.window_eq, valueAt]
  | ask _ asks =>
    rw [asks.phase_eq] at htwo
    cases htwo
  | gather => exact (hsaturated htwo).congr rfl rfl rfl rfl fun _ => rfl
  | fill readies fills =>
    refine saturated_of_fill ?_ ?_ (low_of_readies hlow readies).2 (adu_lt_of_readies hlt readies)
      fills
    -- filling changes neither who leads nor the phase
    · obtain ⟨_, _, _, rfl⟩ := exists_of_fill fills
      exact hleads
    · obtain ⟨_, _, _, rfl⟩ := exists_of_fill fills
      exact htwo
  | resend _ recounted => exact (hsaturated htwo).congr rfl rfl rfl rfl recounted.valueIn_eq

/-! ### Runs -/

section Runs

variable {s : RoleSettings} {id : Nat} {epochs : EpochVector}

theorem unbroken_of_runs (h : Runs act (Replica.start s id epochs).proposer p past) :
    ∃ last, p.Unbroken last := by
  induction h with
  | nil =>
    refine ⟨0, le_rfl, fun t (ht : 0 < t) => ?_, fun htwo => nomatch htwo⟩
    have hnone : valueIn {} t = none := by rw [valueIn, Window.get?_empty]; rfl
    rw [valueAt, show (Replica.start s id epochs).proposer.window = {} from rfl, hnone]
    simp
    omega
  | step run act_eq ih =>
    obtain ⟨last, hlast⟩ := ih
    exact hlast.act (follows_of_runs run).consistent.low_eq act_eq

theorem saturated_of_runs (h : Runs act (Replica.start s id epochs).proposer p past)
    (htwo : p.phase = .two) : p.Saturated := by
  induction h with
  | nil => exact nomatch htwo
  | step run act_eq ih =>
    have hconsistent := (follows_of_runs run).consistent
    apply saturated_of_act hconsistent.low_eq hconsistent.adu_lt ih act_eq ?_ htwo
    exact (mandated_of_runs (run.step act_eq)).leads (by simp [htwo])

theorem paced_of_runs (h : Runs act (Replica.start s id epochs).proposer p past) :
    Paced s.alpha (said past) id p := by
  induction h with
  | nil => exact paced_start id rfl rfl
  | step run act_eq ih =>
    rw [said_append_singleton]
    exact ih.act (follows_of_runs run).consistent.low_eq act_eq

/-- **The pipeline has no holes and is full**, whatever happens to a proposer. Beyond the decided slots it
has values for the slots up to some `last` and for no others. While it proposes, the next slot to
propose for is at most one beyond `last` and beyond the pipeline; and if there is a value for it, held
already or waiting, then it is beyond the pipeline. Each proposal was for a slot of the pipeline, as it
was then. -/
theorem full_pipeline (h : Runs act (Replica.start s id epochs).proposer p past) :
    (∃ last, p.adu ≤ last ∧
      (∀ t, p.adu < t → ((p.valueAt t).isSome = true ↔ t ≤ last)) ∧
      (p.phase = .two → p.adu < p.nextSlot ∧ p.nextSlot ≤ min last (p.adu + s.alpha) + 1 ∧
        (p.queue ≠ [] ∨ (p.valueAt p.nextSlot).isSome = true →
          p.nextSlot = p.adu + s.alpha + 1))) ∧
    ∀ t ∈ past, ∀ m, Said t.output.outbound (.accept m) →
      t.after.adu < m.slot ∧ m.slot ≤ t.after.adu + s.alpha := by
  constructor
  · obtain ⟨last, hle, hiff, hnext⟩ := unbroken_of_runs h
    have hpaced := paced_of_runs h
    refine ⟨last, hle, hiff, fun htwo => ⟨(follows_of_runs h).consistent.adu_lt, ?_, ?_⟩⟩
    · have hlast := hnext htwo
      have hpipeline := hpaced.nextSlot_le
      omega
    · intro hvalue
      have hpipeline := hpaced.nextSlot_le
      rcases saturated_of_runs h htwo with hfull | ⟨hqueue, hnone⟩
      · rw [hpaced.alpha_eq] at hfull
        omega
      · simp [hqueue, hnone] at hvalue
  · intro t ht m hm
    obtain ⟨before, later, rfl⟩ := List.append_of_mem ht
    obtain ⟨hbefore, hact⟩ := h.split
    have hconsistent := (follows_of_runs hbefore).consistent
    obtain ⟨-, -, hadu, hnext, -⟩ := accept_of_act hconsistent.low_eq hconsistent.adu_lt hact hm
    have hpipeline := (paced_of_runs (hbefore.step hact)).nextSlot_le
    exact ⟨hadu, by omega⟩

/-- A proposer keeps values of its own in its second round, where only slot 7 is reported, and proposes
a no-op for the hole at slot 5. Then it hears of deliveries beyond all slots that it knows of, and fills
the pipeline again from slot 10 on. -/
theorem full_pipeline_of_second_round : ∃ p past,
    Runs act (Replica.start ⟨2, 3, 10, 8, .plain⟩ 0 (.zeros 3)).proposer p past ∧
    Said (said past) (.accept ⟨0, ⟨2, 0⟩, 5, .noop, .zeros 3⟩) ∧
    (p.phase = .two ∧ p.adu = 9 ∧ p.nextSlot = 13 ∧ p.queue = [.appBatch [72]]) ∧
    (∃ last, p.adu ≤ last ∧
      (∀ t, p.adu < t → ((p.valueAt t).isSome = true ↔ t ≤ last)) ∧
      (p.phase = .two → p.adu < p.nextSlot ∧ p.nextSlot ≤ min last (p.adu + 3) + 1 ∧
        (p.queue ≠ [] ∨ (p.valueAt p.nextSlot).isSome = true → p.nextSlot = p.adu + 3 + 1))) ∧
    ∀ t ∈ past, ∀ m, Said t.output.outbound (.accept m) →
      t.after.adu < m.slot ∧ m.slot ≤ t.after.adu + 3 := by
  let e : EpochVector := .zeros 3
  let v (n : UInt8) : Value := .appBatch [n]
  obtain ⟨p, past, h, hnoop, hstate⟩ := Runs.exists_of_replay act
    (Replica.start ⟨2, 3, 10, 8, .plain⟩ 0 e).proposer
    [.trust 0, .submit (v 65), .submit (v 66), .submit (v 67), .submit (v 68),
      .promise ⟨1, ⟨1, 0⟩, [], e⟩, .promise ⟨2, ⟨1, 0⟩, [], e⟩, .noteDelivered 1 [(1, v 65)],
      .trust 1, .trust 0, .promise ⟨1, ⟨2, 0⟩, [⟨7, ⟨1, 1⟩, v 90⟩], e⟩,
      .promise ⟨2, ⟨2, 0⟩, [], e⟩, .noteDelivered 2 [(2, v 66)], .noteDelivered 9 [],
      .submit (v 69), .submit (v 70), .submit (v 71), .submit (v 72)]
    (fun p past => Said (said past) (.accept ⟨0, ⟨2, 0⟩, 5, .noop, e⟩) ∧
      p.phase = .two ∧ p.adu = 9 ∧ p.nextSlot = 13 ∧ p.queue = [v 72]) (by decide +kernel)
  exact ⟨p, past, h, hnoop, hstate, full_pipeline h⟩

end Runs

end Proposer

end ReplicatedLog
