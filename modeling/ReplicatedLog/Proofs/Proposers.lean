import ReplicatedLog.Proofs.Acceptors

/-!
# What proposers have said

In every reachable world the messages of a proposer and its state fit together
(`Proposer.Recorded`). Its requests and proposals are for rounds of its own, not above the current
one; in one round it never proposes two values for a slot, nor for a slot that it did not ask about;
and each of its proposals agrees with a quorum of promises.

What carries this from step to step differs by phase. While it collects promises
(`Proposer.Gathers`), it has proposed nothing in its round. Once it proposes (`Proposer.Leads`), it
still has the values that it proposed, and whatever value it has, or may yet give to a slot, agrees
with the promises that it had when it began.
-/

namespace ReplicatedLog

namespace Proposer

/-- The proposer `i` collects promises for a round in which it has proposed nothing. -/
structure Gathers (sent : List Outgoing) (i : Nat) (p : Proposer) : Prop where
  /-- It has not proposed in this round. -/
  proposed_lt : ∀ m, Said sent (.accept m) → m.sender = i → m.round < p.round
  /-- It collects promises for this round. -/
  said : ∀ m ∈ p.promises, Said sent (.promise m) ∧ m.round = p.round
  /-- No two are from one sender. -/
  nodup : (p.promises.map Promise.sender).Nodup
  /-- No value was taken from a vote. -/
  blank : ∀ t, takenIn p.window t = none

/-- The proposer `i` proposes what it has, and what it has agrees with a quorum of promises. -/
structure Leads (q : Nat) (sent : List Outgoing) (i : Nat) (p : Proposer) : Prop where
  /-- It still has what it proposed in this round, up to the decided slots. -/
  proposed : ∀ m, Said sent (.accept m) → m.sender = i → m.round = p.round →
    m.slot < p.nextSlot ∧ (p.adu < m.slot → p.valueAt m.slot = some m.value)
  /-- The value of a slot agrees with the promises; if it has none, any value does. -/
  backed : ∀ t v, p.adu < t → p.valueAt t = some v ∨ p.valueAt t = none → Backed q sent p.round t v

/-- The record of what the proposer `i` has said fits its state; `q` promises are a quorum. -/
structure Recorded (q : Nat) (sent : List Outgoing) (i : Nat) (p : Proposer) : Prop where
  /-- It needs a quorum of promises. -/
  quorum_eq : p.quorum = q
  /-- Its window begins after the decided slots. -/
  low_eq : p.window.low = p.adu + 1
  /-- It proposes for slots that are not decided. -/
  adu_lt : p.adu < p.nextSlot
  /-- It asked for promises of its own rounds, and about all slots that may be undecided. -/
  asked : ∀ m, Said sent (.prepare m) → m.sender = i →
    m.round ≤ p.round ∧ m.round.owner = i ∧ (m.round = p.round → m.slot ≤ p.adu)
  /-- It proposed in its own rounds, and in agreement with a quorum of promises. -/
  proposed : ∀ m, Said sent (.accept m) → m.sender = i → m.round ≤ p.round ∧
    m.round.owner = i ∧ m.round.isBottom = false ∧ Backed q sent m.round m.slot m.value
  /-- It proposed for slots that it had asked about. -/
  asked_below : ∀ m m', Said sent (.prepare m) → m.sender = i → Said sent (.accept m') →
    m'.sender = i → m.round = m'.round → m.slot < m'.slot
  /-- It proposed one value for a slot in a round. -/
  unique : ∀ m m', Said sent (.accept m) → m.sender = i → Said sent (.accept m') →
    m'.sender = i → m.round = m'.round → m.slot = m'.slot → m'.value = m.value
  /-- If it is doing something, its round is a real one of its own. -/
  active : p.phase ≠ .idle → p.round.owner = i ∧ p.round.isBottom = false
  /-- What holds in phase one. -/
  gathers : p.phase = .one → Gathers sent i p
  /-- What holds in phase two. -/
  leads : p.phase = .two → Leads q sent i p

variable {q i : Nat} {sent out : List Outgoing} {p p' : Proposer}

theorem recorded_start {p : Proposer} (i : Nat) (hquorum : p.quorum = q) (hwindow : p.window = {})
    (hphase : p.phase = .idle) (hadu : p.adu = 0) (hnext : p.nextSlot = 1) :
    Recorded q [] i p where
  quorum_eq := hquorum
  low_eq := by rw [hwindow, hadu]
  adu_lt := by rw [hadu, hnext]; exact Nat.one_pos
  asked m hm := absurd hm not_said_nil
  proposed m hm := absurd hm not_said_nil
  asked_below m m' hm := absurd hm not_said_nil
  unique m m' hm := absurd hm not_said_nil
  active h := absurd hphase h
  gathers h := by rw [hphase] at h; cases h
  leads h := by rw [hphase] at h; cases h

theorem prepare_of_author_ne {m : Prepare} (hout : ∀ o ∈ out, o.author ≠ (.proposer, i))
    (hi : m.sender = i) (h : Said (sent ++ out) (.prepare m)) : Said sent (.prepare m) :=
  said_of_author_ne (fun o ho heq => hout o ho (heq.trans (congrArg (Role.proposer, ·) hi))) h

theorem accept_of_author_ne {m : Accept} (hout : ∀ o ∈ out, o.author ≠ (.proposer, i))
    (hi : m.sender = i) (h : Said (sent ++ out) (.accept m)) : Said sent (.accept m) :=
  said_of_author_ne (fun o ho heq => hout o ho (heq.trans (congrArg (Role.proposer, ·) hi))) h

/-- What others say does not disturb the record. -/
theorem Recorded.append (h : Recorded q sent i p) (hout : ∀ o ∈ out, o.author ≠ (.proposer, i)) :
    Recorded q (sent ++ out) i p where
  quorum_eq := h.quorum_eq
  low_eq := h.low_eq
  adu_lt := h.adu_lt
  asked m hm hi := h.asked m (prepare_of_author_ne hout hi hm) hi
  proposed m hm hi := by
    obtain ⟨hle, howner, hbottom, hbacked⟩ := h.proposed m (accept_of_author_ne hout hi hm) hi
    exact ⟨hle, howner, hbottom, hbacked.append out⟩
  asked_below m m' hm hi hm' hi' := h.asked_below m m' (prepare_of_author_ne hout hi hm) hi
    (accept_of_author_ne hout hi' hm') hi'
  unique m m' hm hi hm' hi' := h.unique m m' (accept_of_author_ne hout hi hm) hi
    (accept_of_author_ne hout hi' hm') hi'
  active := h.active
  gathers hphase :=
    { proposed_lt := fun m hm hi =>
        (h.gathers hphase).proposed_lt m (accept_of_author_ne hout hi hm) hi
      said := fun m hm => ((h.gathers hphase).said m hm).imp_left (·.append out)
      nodup := (h.gathers hphase).nodup
      blank := (h.gathers hphase).blank }
  leads hphase :=
    { proposed := fun m hm hi =>
        (h.leads hphase).proposed m (accept_of_author_ne hout hi hm) hi
      backed := fun t v ht hv => ((h.leads hphase).backed t v ht hv).append out }

/-- The record speaks of the round, the window and the decided slots only; stopping does not disturb
it. -/
theorem Recorded.congr (h : Recorded q sent i p) (hquorum : p'.quorum = p.quorum)
    (hround : p'.round = p.round) (hwindow : p'.window = p.window) (hadu : p'.adu = p.adu)
    (hnext : p'.nextSlot = p.nextSlot)
    (hphase : p'.phase = .idle ∨ p'.phase = p.phase ∧ p'.promises = p.promises) :
    Recorded q sent i p' where
  quorum_eq := hquorum.trans h.quorum_eq
  low_eq := by rw [hwindow, hadu, h.low_eq]
  adu_lt := by rw [hadu, hnext]; exact h.adu_lt
  asked := by rw [hround, hadu]; exact h.asked
  proposed := by rw [hround]; exact h.proposed
  asked_below := h.asked_below
  unique := h.unique
  active hactive := by
    rw [hround]
    rcases hphase with hidle | ⟨heq, -⟩
    · exact absurd hidle hactive
    · exact h.active (heq ▸ hactive)
  gathers hone := by
    rcases hphase with hidle | ⟨heq, hpromises⟩
    · rw [hidle] at hone
      cases hone
    · obtain ⟨hlt, hsaid, hnodup, hblank⟩ := h.gathers (heq.symm.trans hone)
      exact ⟨hround ▸ hlt, by rw [hpromises, hround]; exact hsaid, hpromises ▸ hnodup,
        hwindow ▸ hblank⟩
  leads htwo := by
    rcases hphase with hidle | ⟨heq, -⟩
    · rw [hidle] at htwo
      cases htwo
    · obtain ⟨hproposed, hbacked⟩ := h.leads (heq.symm.trans htwo)
      unfold valueAt at hproposed hbacked
      refine ⟨?_, ?_⟩ <;> unfold valueAt <;> rw [hround, hadu, hwindow]
      · rw [hnext]
        exact hproposed
      · exact hbacked

/-! ### Collecting promises -/

/-- Asking for promises starts a round in which nothing is proposed yet. -/
theorem Recorded.asks (h : Recorded q sent i p) (hid : p.id = i) (hasks : Asks p p' out) :
    Recorded q (sent ++ out) i p' := by
  have hout := hasks.out_eq
  have haccept : ∀ {m}, Said (sent ++ out) (.accept m) → Said sent (.accept m) := fun hm =>
    (said_append.mp hm).resolve_right (by simp [hout, Outgoing.message])
  have hprepare : ∀ {m}, Said (sent ++ out) (.prepare m) →
      Said sent (.prepare m) ∨ m = ⟨p.id, p'.round, p.adu⟩ := fun hm =>
    (said_append.mp hm).imp_right fun hm => by
      simpa [hout, Outgoing.message, eq_comm] using hm
  refine
    { quorum_eq := hasks.quorum_eq.trans h.quorum_eq
      low_eq := by rw [hasks.low_eq, hasks.adu_eq, h.low_eq]
      adu_lt := by rw [hasks.adu_eq, hasks.nextSlot_eq]; exact h.adu_lt
      asked := fun m hm hi => ?_
      proposed := fun m hm hi => ?_
      asked_below := fun m m' hm hi hm' hi' heq => ?_
      unique := fun m m' hm hi hm' hi' => h.unique m m' (haccept hm) hi (haccept hm') hi'
      active := fun _ => ⟨hasks.owner_eq.trans hid, hasks.not_bottom⟩
      gathers := fun _ => ⟨fun m hm hi => ?_, ?_, ?_, hasks.takenIn_eq⟩
      leads := fun htwo => ?_ }
  · rcases hprepare hm with hm | rfl
    · obtain ⟨hle, howner, -⟩ := h.asked m hm hi
      exact ⟨hle.trans hasks.above.le, howner, fun heq => absurd (heq ▸ hle) hasks.above.not_ge⟩
    · exact ⟨le_rfl, hasks.owner_eq.trans hid, fun _ => hasks.adu_eq.ge⟩
  · obtain ⟨hle, howner, hbottom, hbacked⟩ := h.proposed m (haccept hm) hi
    exact ⟨hle.trans hasks.above.le, howner, hbottom, hbacked.append out⟩
  · rcases hprepare hm with hm | rfl
    · exact h.asked_below m m' hm hi (haccept hm') hi' heq
    · have hle : p'.round ≤ p.round := heq.le.trans (h.proposed m' (haccept hm') hi').1
      exact absurd hle hasks.above.not_ge
  · exact (h.proposed m (haccept hm) hi).1.trans_lt hasks.above
  · rw [hasks.promises_eq]
    simp
  · rw [hasks.promises_eq]
    simp
  · rw [hasks.phase_eq] at htwo
    cases htwo

/-- One more promise for the round is kept. -/
theorem Recorded.gather (h : Recorded q sent i p) {m : Promise} (topCounter : Nat)
    (hphase : p.phase = .one) (hround : m.round = p.round) (hm : Said sent (.promise m)) :
    Recorded q sent i { p with topCounter, promises := recordPromise p.promises m } where
  quorum_eq := h.quorum_eq
  low_eq := h.low_eq
  adu_lt := h.adu_lt
  asked := h.asked
  proposed := h.proposed
  asked_below := h.asked_below
  unique := h.unique
  active := h.active
  gathers _ :=
    { proposed_lt := (h.gathers hphase).proposed_lt
      said := fun m' hm' => by
        rcases mem_recordPromise hm' with rfl | hm'
        · exact ⟨hm, hround⟩
        · exact (h.gathers hphase).said m' hm'
      nodup := nodup_recordPromise m (h.gathers hphase).nodup
      blank := (h.gathers hphase).blank }
  leads htwo := by
    rw [hphase] at htwo
    cases htwo

/-! ### Proposing -/

/-- With a quorum of promises, what the proposer has agrees with them. -/
theorem Recorded.begun (h : Recorded q sent i p) (hphase : p.phase = .one)
    (henough : p.quorum ≤ p.promises.length)
    (hreports : ∀ m, Said sent (.promise m) → ∀ rep ∈ m.reports, rep.round.isBottom = false)
    (ownBefore : List (Nat × Value)) : Recorded q sent i (p.begun ownBefore) where
  quorum_eq := h.quorum_eq
  low_eq := (low_begun p ownBefore).trans h.low_eq
  adu_lt := Nat.lt_succ_self p.adu
  asked := h.asked
  proposed := h.proposed
  asked_below := h.asked_below
  unique := h.unique
  active _ := h.active (by rw [hphase]; simp)
  gathers hone := by cases hone
  leads _ := by
    obtain ⟨hlt, hsaid, hnodup, hblank⟩ := h.gathers hphase
    refine ⟨fun m hm hi heq => absurd heq (hlt m hm hi).ne, fun t v ht hv => ?_⟩
    have hnotBottom : ∀ rep ∈ p.reports, rep.round.isBottom = false := by
      intro rep hrep
      obtain ⟨m, hm, hrep⟩ := List.mem_flatMap.mp hrep
      exact hreports m (hsaid m hm).1 rep hrep
    refine ⟨p.promises, hnodup, h.quorum_eq ▸ henough, hsaid, ?_⟩
    rcases valueAt_begun ownBefore h.low_eq (hblank t) hnotBottom ht with
      ⟨hnone, -⟩ | ⟨rep, hrep, hslot, hvalue, hmax⟩
    · exact Or.inl hnone
    · rw [hvalue] at hv
      rcases hv with hv | hv
      · exact Or.inr ⟨rep, hrep, hslot, Option.some.inj hv, hmax⟩
      · cases hv

/-- Hearing of deliveries gives up what was proposed for the delivered slots. -/
theorem Recorded.advanced (h : Recorded q sent i p) {adu : Nat} (habove : p.adu < adu)
    (decided : List (Nat × Value)) : Recorded q sent i (p.advanced adu decided) := by
  have hnext := nextSlot_advanced p adu decided
  have hvalue : ∀ t, adu < t → (p.advanced adu decided).valueAt t = p.valueAt t := fun _ ht =>
    valueAt_advanced p decided ht
  exact
    { quorum_eq := h.quorum_eq
      low_eq := by
        have hlow := h.low_eq
        simp only [Proposer.advanced, Window.low_raise]
        omega
      adu_lt := hnext.2
      asked := fun m hm hi => by
        obtain ⟨hle, howner, hslot⟩ := h.asked m hm hi
        exact ⟨hle, howner, fun heq => (hslot heq).trans habove.le⟩
      proposed := h.proposed
      asked_below := h.asked_below
      unique := h.unique
      active := h.active
      gathers := fun hone =>
        { proposed_lt := (h.gathers hone).proposed_lt
          said := (h.gathers hone).said
          nodup := (h.gathers hone).nodup
          blank := fun t => by
            rw [Proposer.advanced, takenIn_raise, (h.gathers hone).blank t, ite_self] }
      leads := fun htwo =>
        { proposed := fun m hm hi heq => by
            obtain ⟨hlt, hv⟩ := (h.leads htwo).proposed m hm hi heq
            refine ⟨hlt.trans_le hnext.1, fun hadu => ?_⟩
            rw [hvalue _ hadu]
            exact hv (habove.trans hadu)
          backed := fun t v ht hv => by
            rw [hvalue t ht] at hv
            exact (h.leads htwo).backed t v (habove.trans ht) hv } }

/-- Proposing what it has, for slots that are not decided, does not disturb the record of a proposer
in phase two. -/
theorem Recorded.speak (h : Recorded q sent i p) (hphase : p.phase = .two)
    (hout : ∀ o ∈ out, ∃ slot value, p.adu < slot ∧ slot < p.nextSlot ∧
      p.valueAt slot = some value ∧ o = p.proposal slot value) :
    Recorded q (sent ++ out) i p := by
  have hprepare : ∀ {m}, Said (sent ++ out) (.prepare m) → Said sent (.prepare m) := by
    intro m hm
    refine (said_append.mp hm).resolve_right fun hm => ?_
    obtain ⟨_, _, -, -, -, heq⟩ := said_of_proposals hout hm
    cases heq
  have haccept : ∀ {m}, Said (sent ++ out) (.accept m) → Said sent (.accept m) ∨
      m.round = p.round ∧ p.adu < m.slot ∧ m.slot < p.nextSlot ∧
        p.valueAt m.slot = some m.value := by
    intro m hm
    refine (said_append.mp hm).imp_right fun hm => ?_
    obtain ⟨slot, value, hadu, hnext, hvalue, heq⟩ := said_of_proposals hout hm
    cases heq
    exact ⟨rfl, hadu, hnext, hvalue⟩
  obtain ⟨howner, hbottom⟩ := h.active (by rw [hphase]; simp)
  have hleads := h.leads hphase
  -- of two proposals of this round for a slot, each is for the value that the proposer has
  have hhas : ∀ {m}, Said (sent ++ out) (.accept m) → m.sender = i → m.round = p.round →
      m.slot < p.nextSlot ∧ (p.adu < m.slot → p.valueAt m.slot = some m.value) := by
    intro m hm hi heq
    rcases haccept hm with hm | ⟨-, -, hnext, hvalue⟩
    · exact hleads.proposed m hm hi heq
    · exact ⟨hnext, fun _ => hvalue⟩
  refine
    { quorum_eq := h.quorum_eq
      low_eq := h.low_eq
      adu_lt := h.adu_lt
      asked := fun m hm hi => h.asked m (hprepare hm) hi
      proposed := fun m hm hi => ?_
      asked_below := fun m m' hm hi hm' hi' heq => ?_
      unique := fun m m' hm hi hm' hi' heq hslot => ?_
      active := h.active
      gathers := fun hone => ?_
      leads := fun _ => ⟨fun m hm hi heq => hhas hm hi heq,
        fun t v ht hv => (hleads.backed t v ht hv).append out⟩ }
  · rcases haccept hm with hm | ⟨heq, hadu, -, hvalue⟩
    · obtain ⟨hle, howner, hbottom, hbacked⟩ := h.proposed m hm hi
      exact ⟨hle, howner, hbottom, hbacked.append out⟩
    · rw [heq]
      exact ⟨le_rfl, howner, hbottom, (hleads.backed _ _ hadu (Or.inl hvalue)).append out⟩
  · rcases haccept hm' with hm' | ⟨heq', hadu, -, -⟩
    · exact h.asked_below m m' (hprepare hm) hi hm' hi' heq
    · exact ((h.asked m (hprepare hm) hi).2.2 (heq.trans heq')).trans_lt hadu
  · rcases haccept hm with hsaid | ⟨heq₁, hadu, -, hvalue⟩
    · rcases haccept hm' with hsaid' | ⟨heq₂, hadu, -, hvalue⟩
      · exact h.unique m m' hsaid hi hsaid' hi' heq hslot
      · have hvalue' := (hhas hm hi (heq.trans heq₂)).2 (hslot ▸ hadu)
        rw [hslot, hvalue] at hvalue'
        exact Option.some.inj hvalue'
    · have hvalue' := (hhas hm' hi' (heq.symm.trans heq₁)).2 (hslot ▸ hadu)
      rw [← hslot, hvalue] at hvalue'
      exact (Option.some.inj hvalue').symm
  · rw [hphase] at hone
    cases hone

/-- Giving values to further slots, and proposing them. -/
theorem Recorded.fill (h : Recorded q sent i p) (hfill : p.fill = .ok (p', out)) :
    Recorded q (sent ++ out) i p' := by
  have hout := proposals_of_fill h.adu_lt hfill
  rcases fill_cases hfill with ⟨-, rfl, rfl⟩ | ⟨-, hphase, room, f, -, hf, rfl, rfl⟩
  · rwa [List.append_nil]
  have hleads := h.leads hphase
  have hextended : Recorded q sent i { p with
      window := f.window, queue := f.queue, nextSlot := p.nextSlot + f.sent.length } :=
    { quorum_eq := h.quorum_eq
      low_eq := hf.low_eq.trans h.low_eq
      adu_lt := h.adu_lt.trans_le (Nat.le_add_right _ _)
      asked := h.asked
      proposed := h.proposed
      asked_below := h.asked_below
      unique := h.unique
      active := h.active
      gathers := fun hone => by
        rw [hphase] at hone
        cases hone
      leads := fun _ =>
        { proposed := fun m hm hi heq => by
            obtain ⟨hlt, hvalue⟩ := hleads.proposed m hm hi heq
            refine ⟨hlt.trans_le (Nat.le_add_right _ _), fun hadu => ?_⟩
            exact (hf.value_eq m.slot (Or.inl hlt)).trans (hvalue hadu)
          backed := fun t v ht hv => by
            refine hleads.backed t v ht ?_
            rcases hf.value_cases t with hsame | hnone
            · rwa [valueAt, ← hsame]
            · exact Or.inr hnone } }
  exact hextended.speak hphase hout

/-- **Proposers keep their record** in every step, if the promises that arrive were sent. -/
theorem Recorded.act (h : Recorded q sent i p) {x : Input} {out : Output} (hid : p.id = i)
    (hsaid : ∀ m, x = .promise m → Said sent (.promise m))
    (hreports : ∀ m, Said sent (.promise m) → ∀ rep ∈ m.reports, rep.round.isBottom = false)
    (hact : p.act x = .ok (p', out)) : Recorded q (sent ++ out.outbound) i p' := by
  cases acts_of_act h.low_eq hact with
  | quiet same =>
    rw [List.append_nil]
    exact h.congr same.quorum_eq same.round_eq same.window_eq same.adu_eq same.nextSlot_eq
      (same.phase_cases.imp_left And.left)
  | ask cause asks => exact h.asks hid asks
  | @gather m topCounter phase_eq round_eq =>
    rw [List.append_nil]
    exact h.gather topCounter phase_eq round_eq (hsaid m rfl)
  | fill readies fills =>
    refine Recorded.fill ?_ fills
    cases readies with
    | @begins m topCounter ownBefore phase_eq round_eq enough =>
      exact (h.gather topCounter phase_eq round_eq (hsaid m rfl)).begun phase_eq
        (Mode.le_length_of_quorumOfPromises enough) hreports ownBefore
    | submits => exact h.congr rfl rfl rfl rfl rfl (Or.inr ⟨rfl, rfl⟩)
    | advances adu decided above => exact h.advanced above decided
  | @resend _ window phase_eq recounted =>
    have hsame : Recorded q sent i { p with window } :=
      { h with
        low_eq := recounted.low_eq.trans h.low_eq
        gathers := fun hone => by
          rw [show p.phase = .one from hone] at phase_eq
          cases phase_eq
        leads := fun htwo => ⟨fun m hm hi heq => by
            rw [valueAt, recounted.valueIn_eq]
            exact (h.leads htwo).proposed m hm hi heq, fun t v ht hv => by
            rw [valueAt, recounted.valueIn_eq] at hv
            exact (h.leads htwo).backed t v ht hv⟩ }
    refine hsame.speak phase_eq fun o ho => ?_
    obtain ⟨slot, value, hadu, hnext, hvalue, heq⟩ := of_mem_resent ho
    exact ⟨slot, value, hadu, hnext, (recounted.valueIn_eq slot).trans hvalue, heq⟩

end Proposer

/-- In every world that ordinary events lead to, what the proposers have said fits their states. -/
theorem Reachable.proposer_recorded {c : ReplicaSettings} {Env : World → Event → Prop}
    (hordinary : ∀ w e, Env w e → e.Ordinary) {w : World} (h : Reachable c Env w) (i : Nat) :
    (w.proposers i).Recorded c.quorum w.sent i := by
  refine h.proposers (P := fun i p sent => p.Recorded c.quorum sent i)
    (fun i => Proposer.recorded_start i rfl rfl rfl rfl rfl)
    (fun i p sent out hout h => h.append hout) ?_ i
  intro w i x p p' out hw hid harrives hrec hact
  refine hrec.act hid (fun m hm => World.said_of_arrives (harrives m hm)) ?_ hact
  intro m hm rep hrep
  exact ((hw.acceptor_recorded hordinary m.sender).reported m hm rfl rep hrep).2.1

end ReplicatedLog
