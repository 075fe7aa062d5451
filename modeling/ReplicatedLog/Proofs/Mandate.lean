import ReplicatedLog.Proofs.ConflictFree
import ReplicatedLog.Proofs.Pacing
import ReplicatedLog.Proofs.ProposerRuns

/-!
# The mandate of a proposer

A proposer proposes in a round only with the mandate of a quorum: the last thing that it was told about
the leader is that it is to lead, the round is the one that it asked promises for last, and since then
promises for this very round have arrived from enough acceptors (`mandate_of_accept`).

Proposals leave in four ways: when the promises are there, when a value is submitted, when slots are
delivered, and again when nothing happens. A step has four ways to treat the promises (`Musters`), and
each keeps what the past tells about those that the proposer holds (`Mandated`).

Nothing is assumed of the inputs: promises may come twice, late, or for rounds that were never asked
for, and the proposer may be told to stop and to lead again at any time.
-/

namespace ReplicatedLog

namespace Proposer

/-! ### What the past tells -/

/-- The promise that an input brings, if it brings one. -/
def Input.promise? : Input → Option Promise
  | .promise m => some m
  | _ => none

/-- Whom the proposer was told last to trust, if it was told that. -/
def lastTrusted (past : Past) : Option Nat :=
  (past.filterMap fun t => t.input.trusted?).getLast?

/-- The promises that arrived, in order. -/
def promisesIn (past : Past) : List Promise := past.filterMap fun t => t.input.promise?

/-- The last request for promises was for `round`, and `since` are the steps after it. -/
def AskedLast (past : Past) (round : Round) (since : Past) : Prop :=
  ∃ earlier asked m, past = earlier ++ asked :: since ∧
    preparesIn asked.output.outbound = [m] ∧ m.round = round ∧ preparesIn (said since) = []

variable {p p' : Proposer} {x : Input} {o : Output} {out : List Outgoing} {past since : Past}
  {t : Turn Proposer Input Output} {round : Round}

@[simp]
theorem lastTrusted_append_singleton (past : Past) (t : Turn Proposer Input Output) :
    lastTrusted (past ++ [t]) = t.input.trusted?.or (lastTrusted past) := by
  cases h : t.input.trusted? <;> simp [lastTrusted, h]

@[simp]
theorem promisesIn_append_singleton (past : Past) (t : Turn Proposer Input Output) :
    promisesIn (past ++ [t]) = promisesIn past ++ t.input.promise?.toList := by
  cases h : t.input.promise? <;> simp [promisesIn, h]

/-- The request stays the last one as long as there is no other. -/
theorem AskedLast.append (h : AskedLast past round since)
    (hnone : preparesIn t.output.outbound = []) :
    AskedLast (past ++ [t]) round (since ++ [t]) := by
  obtain ⟨earlier, asked, m, rfl, hasked, hround, hsince⟩ := h
  refine ⟨earlier, asked, m, by simp, hasked, hround, ?_⟩
  simp [hsince, hnone]

theorem askedLast_of_preparesIn {m : Prepare} (past : Past)
    (h : preparesIn t.output.outbound = [m]) : AskedLast (past ++ [t]) m.round [] :=
  ⟨past, t, m, rfl, h, rfl, rfl⟩

/-! ### Steps -/

theorem isLeader_iff : p.isLeader = true ↔ p.leader = some p.id := by
  simp [isLeader]

/-- A proposer that is told to trust another one stops. -/
theorem phase_of_trust_ne {leader : Nat} (hne : leader ≠ p.id) (h : p.trust leader = .ok (p', out)) :
    p'.phase = .idle := by
  unfold trust at h
  rw [if_pos hne] at h
  cases h
  rfl

/-- A proposer that is not idle leads, if it was so before. -/
theorem leads_of_act (hlow : p.window.low = p.adu + 1)
    (hleads : p.phase ≠ .idle → p.isLeader = true) (h : p.act x = .ok (p', o))
    (hactive : p'.phase ≠ .idle) : p'.isLeader = true := by
  obtain ⟨hsetUp, -, hleader⟩ := setUp_of_act h
  rw [isLeader_iff, hleader, hsetUp.id_eq]
  by_cases hx : x = .trust p.id
  · rw [hx]
    rfl
  · -- what happened was not enough to wake it
    have hbefore : p.phase ≠ .idle := fun hidle => hactive (idle_of_act hlow hidle hx h).1
    cases x with
    | trust leader =>
      obtain ⟨⟨p₁, outbound⟩, htrust, hret⟩ := Checked.bind_eq_ok_iff.mp h
      cases hret
      apply absurd (phase_of_trust_ne ?_ htrust) hactive
      rintro rfl
      exact hx rfl
    | _ => exact isLeader_iff.mp (hleads hbefore)

/-- What a step does about the promises of a round. -/
inductive Musters (p : Proposer) (x : Input) (p' : Proposer) (out : List Outgoing) : Prop
  /-- It gives them up. -/
  | stops (phase_eq : p'.phase = .idle) (promises_eq : p'.promises = [])
  /-- It has them as before. -/
  | keeps (phase_eq : p'.phase = p.phase) (promises_eq : p'.promises = p.promises)
      (round_eq : p'.round = p.round) (none_asked : preparesIn out = [])
  /-- It asks for those of another round. -/
  | asks (phase_eq : p'.phase = .one) (promises_eq : p'.promises = []) {m : Prepare}
      (asked : preparesIn out = [m]) (asked_round : m.round = p'.round)
  /-- It keeps one more, and may have enough then. -/
  | gathers {m : Promise} (input_eq : x = .promise m) (phase_eq : p.phase = .one)
      (promise_round : m.round = p.round)
      (promises_eq : p'.promises = recordPromise p.promises m) (round_eq : p'.round = p.round)
      (none_asked : preparesIn out = [])
      (enough : p'.phase = .one ∨
        p'.phase = .two ∧ p'.mode.quorumOfPromises p'.promises p'.quorum ≠ none)

theorem musters_of_act (hlow : p.window.low = p.adu + 1) (h : p.act x = .ok (p', o)) :
    Musters p x p' o.outbound := by
  cases acts_of_act hlow h with
  | quiet same =>
    rcases same.phase_cases with ⟨hphase, hpromises⟩ | ⟨hphase, hpromises⟩
    · exact .stops hphase hpromises
    · exact .keeps hphase hpromises same.round_eq rfl
  | ask _ asks =>
    refine .asks asks.phase_eq asks.promises_eq (m := ⟨p.id, p'.round, p.adu⟩) ?_ rfl
    rw [asks.out_eq]
    rfl
  | gather topCounter phase_eq round_eq =>
    exact .gathers rfl phase_eq round_eq rfl rfl rfl (Or.inl phase_eq)
  | fill readies fills =>
    have hnone := preparesIn_eq_nil (adu_of_fill fills).2
    obtain ⟨_, _, _, rfl⟩ := exists_of_fill fills
    cases readies with
    | begins topCounter ownBefore phase_eq round_eq enough =>
      exact .gathers rfl phase_eq round_eq rfl rfl hnone (Or.inr ⟨rfl, enough⟩)
    | submits => exact .keeps rfl rfl rfl hnone
    | advances => exact .keeps rfl rfl rfl hnone
  | resend =>
    refine .keeps rfl rfl rfl (preparesIn_eq_nil fun m hm => ?_)
    obtain ⟨_, _, -, -, -, heq⟩ := said_of_proposals (fun _ => of_mem_resent) hm
    cases heq

/-! ### Runs -/

/-- What the past of a proposer tells about the promises that it holds. -/
structure Mandated (past : Past) (p : Proposer) : Prop where
  /-- It trusts whom it was told last to trust. -/
  leader_eq : p.leader = lastTrusted past
  /-- Unless it is idle, it leads. -/
  leads : p.phase ≠ .idle → p.isLeader = true
  /-- No two of its promises are from one sender. -/
  nodup : (p.promises.map Promise.sender).Nodup
  /-- Unless it is idle, it asked last for its round, and its promises arrived since then. -/
  asked : p.phase ≠ .idle → ∃ since, AskedLast past p.round since ∧
    ∀ m ∈ p.promises, m.round = p.round ∧ m ∈ promisesIn since
  /-- If it proposes, it has enough of them. -/
  enough : p.phase = .two → p.mode.quorumOfPromises p.promises p.quorum ≠ none

/-- **The mandate is kept** in every step. -/
theorem Mandated.act (h : Mandated past p) (hlow : p.window.low = p.adu + 1)
    (hact : p.act x = .ok (p', o)) : Mandated (past ++ [⟨p, x, p', o⟩]) p' := by
  obtain ⟨hsetUp, -, hleader⟩ := setUp_of_act hact
  have hleader' : p'.leader = lastTrusted (past ++ [⟨p, x, p', o⟩]) := by
    rw [lastTrusted_append_singleton, hleader, h.leader_eq]
  have hleads := leads_of_act hlow h.leads hact
  cases musters_of_act hlow hact with
  | stops phase_eq promises_eq =>
    constructor
    · exact hleader'
    · exact hleads
    · simp [promises_eq]
    · exact fun hactive => absurd phase_eq hactive
    · intro htwo
      rw [phase_eq] at htwo
      cases htwo
  | keeps phase_eq promises_eq round_eq none_asked =>
    constructor
    · exact hleader'
    · exact hleads
    · rw [promises_eq]
      exact h.nodup
    · intro hactive
      obtain ⟨since, hasked, harrived⟩ := h.asked (phase_eq ▸ hactive)
      rw [promises_eq, round_eq]
      refine ⟨_, hasked.append none_asked, fun m hm => ?_⟩
      simp [harrived m hm]
    · intro htwo
      rw [hsetUp.mode_eq, hsetUp.quorum_eq, promises_eq]
      exact h.enough (phase_eq ▸ htwo)
  | asks phase_eq promises_eq asked asked_round =>
    constructor
    · exact hleader'
    · exact hleads
    · simp [promises_eq]
    · intro _
      rw [← asked_round]
      refine ⟨[], askedLast_of_preparesIn past asked, ?_⟩
      simp [promises_eq]
    · intro htwo
      rw [phase_eq] at htwo
      cases htwo
  | @gathers m input_eq phase_eq promise_round promises_eq round_eq none_asked enough =>
    constructor
    · exact hleader'
    · exact hleads
    · rw [promises_eq]
      exact nodup_recordPromise m h.nodup
    · intro _
      obtain ⟨since, hasked, harrived⟩ := h.asked (by simp [phase_eq])
      rw [promises_eq, round_eq]
      refine ⟨_, hasked.append none_asked, fun m' hm' => ?_⟩
      rcases mem_recordPromise hm' with rfl | hm'
      · simp [promise_round, input_eq, Input.promise?]
      · simp [harrived m' hm']
    · intro htwo
      rcases enough with hone | ⟨-, henough⟩
      · rw [hone] at htwo
        cases htwo
      · exact henough

theorem mandated_of_runs {s : RoleSettings} {id : Nat} {epochs : EpochVector}
    (h : Runs act (Replica.start s id epochs).proposer p past) : Mandated past p := by
  induction h with
  | nil =>
    constructor
    · rfl
    · exact fun hactive => absurd rfl hactive
    · exact List.nodup_nil
    · exact fun hactive => absurd rfl hactive
    · exact fun htwo => nomatch htwo
  | step run act_eq ih => exact ih.act (follows_of_runs run).consistent.low_eq act_eq

/-- **Proposals have a mandate.** Whenever a proposer proposes, for the first time or again, it was told
last that it is to lead; the round is the one that it asked promises for last; and since then promises
for this round have arrived from at least a quorum of acceptors, among them, in epoch-aware mode, a
quorum no two of which conflict. -/
theorem mandate_of_accept {s : RoleSettings} {id : Nat} {epochs : EpochVector} {later : Past}
    {m : Accept} (h : Runs act (Replica.start s id epochs).proposer p (past ++ t :: later))
    (hm : Said t.output.outbound (.accept m)) :
    lastTrusted (past ++ [t]) = some id ∧ ∃ since, AskedLast (past ++ [t]) m.round since ∧
      ∃ Q : List Promise, (∀ c ∈ Q, c.round = m.round ∧ c ∈ promisesIn since) ∧
        (Q.map Promise.sender).Nodup ∧ s.quorum ≤ Q.length ∧
        (s.mode = .epochAware → ∃ V : List Promise, V.Sublist Q ∧ V.length = s.quorum ∧
          V.Pairwise fun a b => a.stamp.conflicts b.stamp = false) := by
  obtain ⟨hbefore, hact⟩ := h.split
  have hconsistent := (follows_of_runs hbefore).consistent
  have hmandated := (mandated_of_runs hbefore).act hconsistent.low_eq hact
  have hsetUp := setUp_of_runs (hbefore.step hact)
  obtain ⟨htwo, hround, -⟩ := accept_of_act hconsistent.low_eq hconsistent.adu_lt hact hm
  have hactive : t.after.phase ≠ .idle := by simp [htwo]
  have henough := hmandated.enough htwo
  rw [hsetUp.mode_eq, hsetUp.quorum_eq] at henough
  constructor
  · rw [← hmandated.leader_eq, isLeader_iff.mp (hmandated.leads hactive), hsetUp.id_eq]
    rfl
  · obtain ⟨since, hasked, harrived⟩ := hmandated.asked hactive
    rw [← hround] at hasked harrived
    refine ⟨since, hasked, t.after.promises, harrived, hmandated.nodup,
      Mode.le_length_of_quorumOfPromises henough, fun haware => ?_⟩
    apply Mode.quorumOfPromises_ne_none_iff.mp
    rw [← haware]
    exact henough

/-- A proposer stops and leads again, and a promise for its first round comes too late. Of the promises
for its second round the first two conflict; with the third one there is a quorum, and it proposes. -/
theorem mandate_of_accept_of_third_promise : ∃ p past t later,
    Runs act (Replica.start ⟨2, 3, 10, 8, .epochAware⟩ 0 (.zeros 3)).proposer p
      (past ++ t :: later) ∧
    Said t.output.outbound (.accept ⟨0, ⟨2, 0⟩, 1, .appBatch [65], .zeros 3⟩) ∧
    lastTrusted (past ++ [t]) = some 0 ∧ ∃ since, AskedLast (past ++ [t]) ⟨2, 0⟩ since ∧
      ∃ V : List Promise, (∀ c ∈ V, c.round = ⟨2, 0⟩ ∧ c ∈ promisesIn since) ∧ V.length = 2 ∧
        V.Pairwise fun a b => a.stamp.conflicts b.stamp = false := by
  let e : EpochVector := .zeros 3
  let e' : EpochVector := ⟨[0, 1, 0]⟩
  obtain ⟨p, all, h, t, ht, hm⟩ := Runs.exists_of_replay act
    (Replica.start ⟨2, 3, 10, 8, .epochAware⟩ 0 e).proposer
    [.trust 0, .promise ⟨1, ⟨1, 0⟩, [], e⟩, .trust 1, .trust 0, .promise ⟨2, ⟨1, 0⟩, [], e⟩,
      .submit (.appBatch [65]), .promise ⟨1, ⟨2, 0⟩, [], e⟩, .promise ⟨2, ⟨2, 0⟩, [], e'⟩, .trust 0,
      .promise ⟨0, ⟨2, 0⟩, [], e'⟩]
    (fun _ past => ∃ t ∈ past,
      Said t.output.outbound (.accept ⟨0, ⟨2, 0⟩, 1, .appBatch [65], e⟩)) (by decide +kernel)
  obtain ⟨past, later, rfl⟩ := List.append_of_mem ht
  obtain ⟨htrusted, since, hasked, Q, harrived, -, -, hvalid⟩ := mandate_of_accept h hm
  obtain ⟨V, hsub, hlength, hfree⟩ := hvalid rfl
  exact ⟨p, past, t, later, h, hm, htrusted, since, hasked, V,
    fun c hc => harrived c (hsub.subset hc), hlength, hfree⟩

end Proposer

end ReplicatedLog
