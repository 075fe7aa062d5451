import Mathlib.Algebra.Group.Nat.Defs
import ReplicatedLog.Proofs.CalmEffects
import ReplicatedLog.Proofs.Extent

/-!
# Calm runs go on

No step of a calm run fails (`CalmRun.exists_step`): whatever may happen next does happen, if fewer than
`2 ^ 62` values were submitted and the pipeline is shorter than `2 ^ 63`. All slots are then at most as
many as the values, and every sum that a role computes fits in a word.
-/

namespace ReplicatedLog

open Function

namespace Proposer

variable {p : Proposer} {S : List Value} {m : Nat}

/-- Outside phase two, filling the pipeline does nothing. -/
theorem fill_of_phase_ne (hphase : p.phase ≠ .two) : p.fill = .ok (p, []) := by
  simp [fill, hphase]

/-- A proposer whose values are in order fills the pipeline if slots and pipeline fit in words. -/
theorem InOrder.exists_fill (h : InOrder S m p) (halpha : p.adu + p.alpha < Word.size)
    (hS : S.length + 1 < Word.size) : ∃ p' out, p.fill = .ok (p', out) := by
  by_cases hleads : p.isLeader = true ∧ p.phase = .two
  · have hlow := h.low_eq
    have hlt := h.adu_lt
    obtain ⟨m', -, hm', -, -, hlength, -⟩ := fillFrom_assigned (p.adu + p.alpha + 1 - p.nextSlot)
      p.nextSlot p.window p.queue m h.le_length h.queue_eq h.assigned (by omega) (by omega)
      h.nextSlot_le
    exact ⟨_, _, (fill_eq_ok_iff hleads.1 hleads.2).mpr ⟨halpha, by omega, rfl, rfl⟩⟩
  · refine ⟨p, [], ?_⟩
    unfold Proposer.fill
    rw [if_neg (by simpa using hleads)]

/-- A leader that has given no value to a slot while it gathers promises takes every promise. -/
theorem InOrder.exists_promise (h : InOrder S m p) (hwindow : p.phase = .one → p.window = {})
    {msg : Promise} (hmsg : ∀ rep ∈ msg.reports, rep.slot ≤ m ∧ IsNth S rep.slot rep.value)
    (halpha : S.length + p.alpha < Word.size) (hS : S.length + 2 < Word.size) :
    ∃ r, p.promise msg = .ok r := by
  have hadu := h.adu_le
  have hlength := h.le_length
  obtain ⟨topCounter, hheard⟩ := hear_reports (p.hear msg.round) msg.reports
  unfold promise
  rw [hheard]
  dsimp only [hear]
  split
  · exact ⟨_, rfl⟩
  rename_i hcounts
  simp only [Bool.or_eq_true, Bool.not_eq_true', bne_iff_ne, not_or, not_not] at hcounts
  split
  · exact ⟨_, rfl⟩
  -- it has its promises
  have hgathered := h.gather topCounter hmsg
  obtain ⟨ownBefore, hown⟩ : ∃ ownBefore, ownValues { p with
      topCounter, promises := recordPromise p.promises msg } = .ok ownBefore := by
    have hstop : p.window.stop < Word.size := by
      rw [hwindow hcounts.1.2]
      decide
    obtain ⟨held, hheld⟩ := Window.exists_range hstop (p.adu + 1) p.window.highest
    exact ⟨_, Checked.bind_eq_ok_iff.mpr
      ⟨_, Word.fit_eq_ok_iff.mpr ⟨by dsimp only; omega, rfl⟩,
        Checked.bind_eq_ok_iff.mpr ⟨held, hheld, rfl⟩⟩⟩
  obtain ⟨p', out, hfill⟩ := (hgathered.begun hown).exists_fill
    (show p.adu + p.alpha < _ by omega) (by omega)
  have hholes := hgathered.holesFound_eq_zero
  refine ⟨(p', out), (beginProposing_eq _).trans ?_⟩
  refine Checked.bind_eq_ok_iff.mpr ⟨ownBefore, hown, Checked.bind_eq_ok_iff.mpr ⟨0, ?_, hfill⟩⟩
  rw [hholes]
  rfl

/-- A leader of a calm run takes every step, if slots and pipeline fit in words. -/
theorem InOrder.exists_act (h : InOrder S m p) (hlead : p.isLeader = true)
    (hactive : p.phase ≠ .idle) (hwindow : p.phase = .one → p.window = {}) {x : Input}
    (hx : x.Calm p.id)
    (hmsg : ∀ msg, x = .promise msg →
      ∀ rep ∈ msg.reports, rep.slot ≤ m ∧ IsNth S rep.slot rep.value)
    (hnote : ∀ adu decided, x = .noteDelivered adu decided →
      adu ≤ m ∧ ∀ d ∈ decided, IsNth S d.1 d.2)
    (halpha : S.length + p.alpha < Word.size) (hS : S.length + 2 < Word.size) :
    ∃ p' o, p.act x = .ok (p', o) := by
  have hadu := h.adu_le
  have hlength := h.le_length
  cases x with
  | trust j =>
    obtain rfl : j = p.id := hx
    exact ⟨_, _, Checked.bind_eq_ok_iff.mpr ⟨_, trust_of_leads hlead hactive, rfl⟩⟩
  | promise msg =>
    obtain ⟨⟨p', out⟩, hpromise⟩ := h.exists_promise hwindow (hmsg msg rfl) halpha hS
    exact ⟨p', _, Checked.bind_eq_ok_iff.mpr ⟨_, hpromise, rfl⟩⟩
  | submit value =>
    obtain ⟨p', out, hfill⟩ := (h.submit value).exists_fill
      (show p.adu + p.alpha < _ by omega) (by rw [List.length_append]; exact hS)
    have hsubmit : p.submit value = .ok (p', .ok out) := by
      unfold Proposer.submit
      rw [if_neg (by simp [hlead])]
      exact Checked.bind_eq_ok_iff.mpr ⟨_, hfill, rfl⟩
    exact ⟨p', _, Checked.bind_eq_ok_iff.mpr ⟨_, hsubmit, rfl⟩⟩
  | noteDelivered adu decided =>
    obtain ⟨⟨p', out⟩, hnoted⟩ : ∃ r, p.noteDelivered adu decided = .ok r := by
      obtain ⟨hle, hdecided⟩ := hnote adu decided rfl
      unfold noteDelivered
      split
      · exact ⟨_, rfl⟩
      · rename_i habove
        obtain ⟨p', out, hfill⟩ := (h.advanced (Nat.not_le.mp habove) hle hdecided).exists_fill
          (show adu + p.alpha < _ by omega) (by omega)
        exact ⟨(p', out), Checked.bind_eq_ok_iff.mpr
          ⟨_, Word.fit_eq_ok_iff.mpr ⟨by omega, rfl⟩, hfill⟩⟩
    exact ⟨p', _, Checked.bind_eq_ok_iff.mpr ⟨_, hnoted, rfl⟩⟩
  | hear => exact hx.elim
  | retry => exact hx.elim
  | checkProgress => exact hx.elim
  | setEpochs => exact hx.elim

/-- A proposer that does not lead takes every step but that of leading, if the slots that it hears of fit
in words. -/
theorem exists_act_of_idle (hidle : p.phase = .idle) {x : Input} {leader : Nat} (hx : x.Calm leader)
    (htrust : x ≠ .trust p.id)
    (hnote : ∀ adu decided, x = .noteDelivered adu decided → adu + 1 < Word.size) :
    ∃ p' o, p.act x = .ok (p', o) := by
  have hfill : ∀ {q : Proposer}, q.phase = .idle → q.fill = .ok (q, []) :=
    fun hq => fill_of_phase_ne (by simp [hq])
  cases x with
  | trust j =>
    have hj : j ≠ p.id := fun heq => htrust (congrArg _ heq)
    exact ⟨_, _, Checked.bind_eq_ok_iff.mpr ⟨_, if_pos hj, rfl⟩⟩
  | promise msg =>
    obtain ⟨topCounter, hheard⟩ := hear_reports (p.hear msg.round) msg.reports
    have hpromise : ∃ r, p.promise msg = .ok r := by
      unfold promise
      rw [hheard]
      exact ⟨_, if_pos (by simp [hear, hidle])⟩
    obtain ⟨⟨p', out⟩, hpromise⟩ := hpromise
    exact ⟨p', _, Checked.bind_eq_ok_iff.mpr ⟨_, hpromise, rfl⟩⟩
  | submit value =>
    obtain ⟨⟨p', result⟩, hsubmit⟩ : ∃ r, p.submit value = .ok r := by
      unfold submit
      split
      · exact ⟨_, rfl⟩
      · exact ⟨_, Checked.bind_eq_ok_iff.mpr ⟨_, hfill hidle, rfl⟩⟩
    cases result with
    | ok out => exact ⟨p', _, Checked.bind_eq_ok_iff.mpr ⟨_, hsubmit, rfl⟩⟩
    | error fault => exact ⟨p', _, Checked.bind_eq_ok_iff.mpr ⟨_, hsubmit, rfl⟩⟩
  | noteDelivered adu decided =>
    obtain ⟨⟨p', out⟩, hnoted⟩ : ∃ r, p.noteDelivered adu decided = .ok r := by
      unfold noteDelivered
      split
      · exact ⟨_, rfl⟩
      · exact ⟨_, Checked.bind_eq_ok_iff.mpr
          ⟨_, Word.fit_eq_ok_iff.mpr ⟨hnote adu decided rfl, rfl⟩, hfill hidle⟩⟩
    exact ⟨p', _, Checked.bind_eq_ok_iff.mpr ⟨_, hnoted, rfl⟩⟩
  | hear => exact hx.elim
  | retry => exact hx.elim
  | checkProgress => exact hx.elim
  | setEpochs => exact hx.elim

end Proposer

variable {c : ReplicaSettings} {leader i : Nat} {epochs : EpochVector} {w : World} {e : Event}
  {flight rest : List (Nat × Message)}

/-- A leader that was told to lead still does, and has given no value to a slot before it has its
promises. -/
theorem World.Stage.active (h : w.Stage c leader epochs) (hactive : (w.proposers leader).phase ≠ .idle) :
    (w.proposers leader).isLeader = true ∧
      ((w.proposers leader).phase = .one → (w.proposers leader).window = {}) := by
  cases h with
  | idle _ _ _ proposer_eq =>
    rw [proposer_eq] at hactive
    exact absurd rfl hactive
  | gathers _ _ gathering => exact ⟨gathering.leads, fun _ => gathering.window_eq⟩
  | proposes proposing =>
    refine ⟨proposing.leads, fun hone => ?_⟩
    cases hone.symm.trans proposing.phase_eq

namespace CalmRun

/-- All slots that are proposed for have one of the values submitted to the leader. -/
theorem proposedUpTo (h : CalmRun c leader epochs w flight) :
    ProposedUpTo (w.submitted leader).length w.sent := by
  obtain ⟨m, hm, hproposed⟩ := h.led.fifo.inOrder
  exact fun r slot v hv => (hproposed r slot v hv).1.trans hm.le_length

/-- A proposer, when it has heard of a round or not, takes every step of a calm run that does not make
it lead. -/
theorem exists_proposer_act (hleader : leader < c.replicas) (halpha : c.alpha < 2 ^ 63)
    (hcount : (w.submitted leader).length < 2 ^ 62) (h : CalmRun c leader epochs w flight)
    {p : Proposer} (hp : ∃ topCounter, p = { w.proposers i with topCounter })
    {x : Proposer.Input} (hx : x.Calm leader) (hstarts : p.phase = .idle → x ≠ .trust i)
    (hmsg : ∀ msg, x = .promise msg → Said w.sent (.promise msg))
    (hnote : ∀ adu decided, x = .noteDelivered adu decided →
      adu ≤ (w.logs i).length ∧ ∀ d ∈ decided, d ∈ w.logs i) :
    ∃ p' o, p.act x = .ok (p', o) := by
  obtain ⟨hid, hphase⟩ : p.id = i ∧ p.phase = (w.proposers i).phase := by
    obtain ⟨topCounter, rfl⟩ := hp
    exact ⟨(h.reachable.ids i).2.2.1, rfl⟩
  have hsize : Word.size = 2 ^ 64 := rfl
  by_cases hidle : p.phase = .idle
  · refine Proposer.exists_act_of_idle hidle hx (hid.symm ▸ hstarts hidle) fun adu decided hxeq => ?_
    have hlength := h.reachable.length_logs_le h.proposedUpTo i
    have hadu := (hnote adu decided hxeq).1
    omega
  · -- only the leader was told to lead
    obtain rfl : i = leader := by_contra fun hne => hidle (hphase.trans (h.led.fifo.idle i hne))
    obtain ⟨m, hm, -, hreported, hnoted⟩ := h.led.fifo.exists_inOrder h.led
    obtain ⟨hlead, hwindow⟩ := (h.stage_said hleader).1.active (hphase ▸ hidle)
    have halpha' := (h.ordinary.proposer_paced i).1.alpha_eq
    obtain ⟨topCounter, rfl⟩ := hp
    have hm' : Proposer.InOrder (w.submitted i) m { w.proposers i with topCounter } :=
      hm.congr rfl rfl rfl rfl hm.reports
    refine hm'.exists_act hlead hidle hwindow (hid.symm ▸ hx)
      (fun msg hxeq => hreported msg (hmsg msg hxeq)) (fun adu decided hxeq => ?_) ?_ (by omega)
    · obtain ⟨hadu, hdecided⟩ := hnote adu decided hxeq
      exact hnoted adu decided hadu hdecided
    · dsimp only
      omega

/-- **A calm run goes on**: whatever may happen next does. -/
theorem exists_step (hleader : leader < c.replicas) (halpha : c.alpha < 2 ^ 63)
    (hcount : (w.submitted leader).length < 2 ^ 62) (h : CalmRun c leader epochs w flight)
    (hnext : w.Next c.replicas leader flight e rest) : ∃ w', w.step e = .ok w' := by
  have hallowed := h.allowed hnext
  have hlast := h.proposedUpTo
  have hsize : (w.submitted leader).length + 1 < Word.size := by
    have hword : Word.size = 2 ^ 64 := rfl
    omega
  cases e with
  | acceptor i x =>
    have hraise : ∀ slot, x ≠ .raiseLow slot := by
      rintro slot rfl
      exact hnext.ordinary_ledBy.1
    obtain ⟨a, out, hact⟩ := Acceptor.exists_act hsize
      (h.ordinary.acceptor_stop_le (fun _ _ _ henv => henv) hlast i)
      (h.reachable.acceptor_input_within hlast hallowed hraise)
    exact ⟨_, Checked.bind_eq_ok_iff.mpr ⟨_, hact, rfl⟩⟩
  | snapshot i slot => exact absurd hnext World.Next.not_snapshot
  | proposer i x =>
    obtain ⟨p, o, hact⟩ : ∃ p o, (w.proposers i).act x = .ok (p, o) := by
      by_cases hstarts : (w.proposers i).phase = .idle ∧ x = .trust i
      · -- it is the leader, and begins
        obtain ⟨hidle, rfl⟩ := hstarts
        obtain rfl : i = leader := hnext.trust_eq
        cases (h.stage_said hleader).1 with
        | idle _ _ _ proposer_eq =>
          obtain ⟨p, hact, -⟩ := Proposer.act_trust_start c i epochs
          exact ⟨p, _, proposer_eq ▸ hact⟩
        | gathers _ _ gathering => cases gathering.phase_eq.symm.trans hidle
        | proposes proposing => cases proposing.phase_eq.symm.trans hidle
      · refine h.exists_proposer_act hleader halpha hcount ⟨_, rfl⟩ hnext.calm_input
          (fun hidle hx => hstarts ⟨hidle, hx⟩) ?_ ?_
        · rintro msg rfl
          exact World.said_of_arrives hallowed.2
        · rintro adu decided rfl
          exact hallowed.elim
    exact ⟨_, Checked.bind_eq_ok_iff.mpr ⟨_, hact, rfl⟩⟩
  | handOver i =>
    unfold World.step
    dsimp only
    split
    · exact ⟨_, rfl⟩
    · rename_i note rest hwaiting
      have htold := (h.reachable.told i).waiting note (by rw [hwaiting]; exact List.mem_cons_self)
      obtain ⟨p, o, hact⟩ := h.exists_proposer_act hleader halpha hcount (i := i)
        (p := (w.proposers i).hear note.round) (x := .noteDelivered note.adu note.decided)
        ⟨_, rfl⟩ trivial (by simp) (by simp) (by rintro adu decided ⟨⟩; exact htold)
      obtain ⟨⟨p', out⟩, hnoted, -⟩ := Checked.bind_eq_ok_iff.mp hact
      exact ⟨_, Checked.bind_eq_ok_iff.mpr ⟨_, hnoted, rfl⟩⟩
  | learner i x =>
    obtain ⟨l, d, hact⟩ := Learner.exists_act hsize (h.reachable.learner_next_le hlast i)
      (h.reachable.learner_stop_le hlast i) (h.reachable.learner_input_within hlast hallowed)
    exact ⟨_, Checked.bind_eq_ok_iff.mpr ⟨_, hact, rfl⟩⟩

end CalmRun

end ReplicatedLog
