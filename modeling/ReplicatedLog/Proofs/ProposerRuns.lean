import ReplicatedLog.Proofs.Leading

/-!
# Runs of a proposer

What a proposer says, whatever happens to it: it may be told to lead or to stop, get any promises,
hear of any rounds and deliveries, and run into its timeouts, in any order (`Runs`).

* Its rounds are its own and rise, and each has a higher counter than all rounds that it got to know
  before it began to lead under it (`notes_of_act`).
* For a slot it proposes one value in a round (`Consistent`). A round that it asked promises for is
  new, so nothing was proposed in it. Once it proposes, it keeps the value of each slot that it
  proposed for until the slot is delivered, and never goes back to a delivered one.

Together this is `one_value_per_round`. Nothing is assumed of the promises; that they report real
votes matters for which values are proposed, not for their being the same.
-/

namespace ReplicatedLog

namespace Proposer

/-- The steps of a run, in order. -/
abbrev Past := List (Turn Proposer Input Output)

/-- What was sent. -/
def said (past : Past) : List Outgoing := past.flatMap fun t => t.output.outbound

/-- The requests for promises among the messages sent. -/
def preparesIn (out : List Outgoing) : List Prepare := select Message.prepare? out

/-- The counters of the rounds that an input tells of. -/
def Input.counters : Input → List Nat
  | .promise m => m.round.counter :: m.reports.map fun r => r.round.counter
  | .hear round => [round.counter]
  | _ => []

/-- The counters of the rounds that were told of. -/
def heard (past : Past) : List Nat := past.flatMap fun t => t.input.counters

variable {p p' : Proposer} {x : Input} {o : Output} {out sent : List Outgoing} {past later : Past}

theorem mem_preparesIn {m : Prepare} : m ∈ preparesIn out ↔ Said out (.prepare m) := by
  simp [preparesIn, mem_select, Message.prepare?_eq_some]

theorem preparesIn_eq_nil (h : ∀ m, ¬ Said out (.prepare m)) : preparesIn out = [] := by
  rw [List.eq_nil_iff_forall_not_mem]
  intro m hm
  exact h m (mem_preparesIn.mp hm)

@[simp]
theorem said_append_singleton (past : Past) (t : Turn Proposer Input Output) :
    said (past ++ [t]) = said past ++ t.output.outbound := by
  simp [said]

@[simp]
theorem heard_append_singleton (past : Past) (t : Turn Proposer Input Output) :
    heard (past ++ [t]) = heard past ++ t.input.counters := by
  simp [heard]

@[simp]
theorem preparesIn_append (out out' : List Outgoing) :
    preparesIn (out ++ out') = preparesIn out ++ preparesIn out' := select_append _ _ _

/-! ### Counters -/

theorem topCounter_of_askPromises (h : p.askPromises = .ok (p', out)) :
    p'.topCounter = p.topCounter ∧ p.topCounter < p'.round.counter ∧
      ∀ m, Said out (.prepare m) → m.round = p'.round := by
  obtain ⟨round, hround, h⟩ := Checked.bind_eq_ok_iff.mp h
  obtain ⟨first, -, h⟩ := Checked.bind_eq_ok_iff.mp h
  obtain ⟨stop, -, h⟩ := Checked.bind_eq_ok_iff.mp h
  cases h
  refine ⟨rfl, Round.seen_lt_of_next hround, fun m hm => ?_⟩
  rw [said_singleton, Outgoing.message, Message.prepare.injEq] at hm
  rw [← hm]

theorem topCounter_of_fill (h : p.fill = .ok (p', out)) : p'.topCounter = p.topCounter := by
  obtain ⟨_, _, _, rfl⟩ := exists_of_fill h
  rfl

/-- A proposer notes every round of a promise and of its reports, even if the promise does not count. -/
theorem topCounter_of_promise {m : Promise} (h : p.promise m = .ok (p', out)) :
    p.topCounter ≤ p'.topCounter ∧ m.round.counter ≤ p'.topCounter ∧
      ∀ r ∈ m.reports, r.round.counter ≤ p'.topCounter := by
  have hheard : ∀ (reports : List Report) (p : Proposer),
      p.topCounter ≤ (reports.foldl (fun p r => p.hear r.round) p).topCounter ∧
        ∀ r ∈ reports, r.round.counter ≤
          (reports.foldl (fun p r => p.hear r.round) p).topCounter := by
    intro reports
    induction reports with
    | nil => exact fun p => ⟨le_rfl, by simp⟩
    | cons r reports ih =>
      intro p
      obtain ⟨hle, hall⟩ := ih (p.hear r.round)
      simp only [hear] at hle hall
      refine ⟨(le_max_left _ _).trans hle, fun r' hr' => ?_⟩
      rcases List.mem_cons.mp hr' with rfl | hr'
      · exact (le_max_right _ _).trans hle
      · exact hall r' hr'
  have htop : p'.topCounter =
      (m.reports.foldl (fun p r => p.hear r.round) (p.hear m.round)).topCounter := by
    unfold promise at h
    dsimp only at h
    split at h
    · cases h
      rfl
    · split at h
      · cases h
        rfl
      · obtain ⟨ownBefore, -, hfill⟩ := beginProposing_cases h
        exact (topCounter_of_fill hfill).trans rfl
  obtain ⟨hle, hall⟩ := hheard m.reports (p.hear m.round)
  rw [htop]
  exact ⟨(le_max_left _ _).trans hle, (le_max_right _ _).trans hle, hall⟩

/-- From `p` to `p'` the counters of all rounds that the input tells of were noted, and promises were
asked for only of a round with a higher one. -/
structure Notes (p : Proposer) (x : Input) (p' : Proposer) (out : List Outgoing) : Prop where
  /-- What was noted stays noted. -/
  top_le : p.topCounter ≤ p'.topCounter
  /-- What is told is noted. -/
  heard_le : ∀ k ∈ x.counters, k ≤ p'.topCounter
  /-- What is asked for is above. -/
  asked_lt : ∀ m, Said out (.prepare m) → p'.topCounter < m.round.counter

theorem notes_of_askPromises {q : Proposer} (h : q.askPromises = .ok (p', out))
    (htop : q.topCounter = p.topCounter) (hx : x.counters = []) : Notes p x p' out := by
  obtain ⟨htop', hlt, hround⟩ := topCounter_of_askPromises h
  constructor
  · exact (htop'.trans htop).ge
  · simp [hx]
  · intro m hm
    rw [hround m hm, htop']
    exact hlt

theorem notes_of_quiet (hout : ∀ m, ¬ Said out (.prepare m)) (htop : p'.topCounter = p.topCounter)
    (hx : x.counters = []) : Notes p x p' out where
  top_le := htop.ge
  heard_le := by simp [hx]
  asked_lt m hm := absurd hm (hout m)

theorem notes_of_fill {q : Proposer} (h : q.fill = .ok (p', out))
    (htop : q.topCounter = p.topCounter) (hx : x.counters = []) : Notes p x p' out :=
  notes_of_quiet (adu_of_fill h).2 ((topCounter_of_fill h).trans htop) hx

theorem notes_of_promise {m : Promise} (h : p.promise m = .ok (p', out)) :
    Notes p (.promise m) p' out := by
  obtain ⟨hle, hround, hreports⟩ := topCounter_of_promise h
  refine ⟨hle, ?_, fun m' hm' => absurd hm' ?_⟩
  · simpa [Input.counters] using ⟨hround, hreports⟩
  · obtain ⟨topCounter, ⟨-, -, rfl⟩ | ⟨-, -, ⟨-, -, rfl⟩ | ⟨-, hbegin⟩⟩⟩ := promise_cases h
    · exact not_said_nil
    · exact not_said_nil
    · obtain ⟨ownBefore, -, hfill⟩ := beginProposing_cases hbegin
      exact (adu_of_fill hfill).2 m'

/-- **Counters**: a proposer notes the counters of all rounds that it is told of, and asks for promises
only of rounds with a higher one. -/
theorem notes_of_act (h : p.act x = .ok (p', o)) : Notes p x p' o.outbound := by
  have hnone : ∀ m, ¬ Said [] (.prepare m) := fun _ => not_said_nil
  cases x with
  | trust leader =>
    obtain ⟨⟨p₁, outbound⟩, htrust, hret⟩ := Checked.bind_eq_ok_iff.mp h
    cases hret
    unfold trust at htrust
    dsimp only at htrust
    split at htrust
    · cases htrust
      exact notes_of_quiet hnone rfl rfl
    split at htrust
    · cases htrust
      exact notes_of_quiet hnone rfl rfl
    · exact notes_of_askPromises htrust rfl rfl
  | promise m =>
    obtain ⟨⟨p₁, outbound⟩, hpromise, hret⟩ := Checked.bind_eq_ok_iff.mp h
    cases hret
    exact notes_of_promise hpromise
  | submit value =>
    obtain ⟨⟨p₁, result⟩, hsubmit, hret⟩ := Checked.bind_eq_ok_iff.mp h
    rcases submit_cases hsubmit with ⟨rfl, fault, rfl⟩ | ⟨-, outbound, rfl, hfill⟩
    · cases hret
      exact notes_of_quiet hnone rfl rfl
    · cases hret
      exact notes_of_fill hfill rfl rfl
  | hear round =>
    cases h
    exact ⟨le_max_left _ _, by simp [Input.counters, hear], fun m hm => absurd hm (hnone m)⟩
  | noteDelivered adu decided =>
    obtain ⟨⟨p₁, outbound⟩, hnote, hret⟩ := Checked.bind_eq_ok_iff.mp h
    cases hret
    rcases noteDelivered_cases hnote with ⟨-, rfl, rfl⟩ | ⟨-, -, hfill⟩
    · exact notes_of_quiet hnone rfl rfl
    · exact notes_of_fill hfill rfl rfl
  | retry =>
    obtain ⟨⟨p₁, outbound⟩, hretry, hret⟩ := Checked.bind_eq_ok_iff.mp h
    cases hret
    unfold retry at hretry
    split at hretry
    · exact notes_of_askPromises hretry rfl rfl
    · cases hretry
      exact notes_of_quiet hnone rfl rfl
  | checkProgress =>
    obtain ⟨⟨p₁, outbound⟩, hcheck, hret⟩ := Checked.bind_eq_ok_iff.mp h
    cases hret
    cases checks_of_checkProgress hcheck with
    | rests => exact notes_of_quiet hnone rfl rfl
    | notes => exact notes_of_quiet hnone rfl rfl
    | renews _ _ _ asks => exact notes_of_askPromises asks rfl rfl
    | resends =>
      refine notes_of_quiet (fun m hm => ?_) rfl rfl
      obtain ⟨_, _, -, -, -, heq⟩ := said_of_proposals (fun _ => of_mem_resent) hm
      cases heq
  | setEpochs epochs =>
    cases h
    exact notes_of_quiet hnone rfl rfl

/-! ### Proposals -/

/-- What a proposer has proposed fits its state. -/
structure Consistent (sent : List Outgoing) (p : Proposer) : Prop where
  /-- Its window begins after the decided slots. -/
  low_eq : p.window.low = p.adu + 1
  /-- It proposes for slots that are not decided. -/
  adu_lt : p.adu < p.nextSlot
  /-- It proposed in no round above its own. -/
  round_le : ∀ m, Said sent (.accept m) → m.round ≤ p.round
  /-- It proposed one value for a slot in a round. -/
  unique : ∀ m m', Said sent (.accept m) → Said sent (.accept m') → m.round = m'.round →
    m.slot = m'.slot → m.value = m'.value
  /-- While it collects promises, its round is unused. -/
  unused : p.phase = .one → ∀ m, Said sent (.accept m) → m.round ≠ p.round
  /-- While it proposes, it still has what it proposed in its round, up to the decided slots. -/
  kept : p.phase = .two → ∀ m, Said sent (.accept m) → m.round = p.round →
    m.slot < p.nextSlot ∧ (p.adu < m.slot → p.valueAt m.slot = some m.value)

theorem consistent_start (hwindow : p.window = {}) (hadu : p.adu = 0) (hnext : p.nextSlot = 1) :
    Consistent [] p where
  low_eq := by rw [hwindow, hadu]
  adu_lt := by rw [hadu, hnext]; exact Nat.one_pos
  round_le m hm := absurd hm not_said_nil
  unique m m' hm := absurd hm not_said_nil
  unused _ m hm := absurd hm not_said_nil
  kept _ m hm := absurd hm not_said_nil

/-- It fits any state with the same round and values that has stopped, or does what the first does. -/
theorem Consistent.congr (h : Consistent sent p) (hround : p'.round = p.round)
    (hlow : p'.window.low = p.window.low) (hvalue : ∀ t, p'.valueAt t = p.valueAt t)
    (hadu : p'.adu = p.adu) (hnext : p'.nextSlot = p.nextSlot)
    (hphase : p'.phase = .idle ∨ p'.phase = p.phase) : Consistent sent p' where
  low_eq := by rw [hlow, hadu, h.low_eq]
  adu_lt := by rw [hadu, hnext]; exact h.adu_lt
  round_le := hround ▸ h.round_le
  unique := h.unique
  unused hone := by
    rcases hphase with hidle | heq
    · rw [hidle] at hone
      cases hone
    · rw [hround]
      exact h.unused (heq.symm.trans hone)
  kept htwo := by
    rcases hphase with hidle | heq
    · rw [hidle] at htwo
      cases htwo
    · intro m hm hm'
      rw [hnext, hadu, hvalue]
      exact h.kept (heq.symm.trans htwo) m hm (hm'.trans hround)

/-- The round that promises are asked for is unused. -/
theorem Consistent.asks (h : Consistent sent p) (hasks : Asks p p' out) :
    Consistent (sent ++ out) p' := by
  have haccept : ∀ {m}, Said (sent ++ out) (.accept m) → Said sent (.accept m) := fun hm =>
    (said_append.mp hm).resolve_right (by simp [hasks.out_eq, Outgoing.message])
  constructor
  · rw [hasks.low_eq, hasks.adu_eq, h.low_eq]
  · rw [hasks.adu_eq, hasks.nextSlot_eq]
    exact h.adu_lt
  · intro m hm
    exact (h.round_le m (haccept hm)).trans hasks.above.le
  · intro m m' hm hm'
    exact h.unique m m' (haccept hm) (haccept hm')
  · intro _ m hm
    exact ((h.round_le m (haccept hm)).trans_lt hasks.above).ne
  · intro htwo
    rw [hasks.phase_eq] at htwo
    cases htwo

/-- Nothing is kept yet when a proposer begins to propose. -/
theorem Consistent.begun (h : Consistent sent p) (hphase : p.phase = .one)
    (ownBefore : List (Nat × Value)) : Consistent sent (p.begun ownBefore) where
  low_eq := (low_begun p ownBefore).trans h.low_eq
  adu_lt := Nat.lt_succ_self p.adu
  round_le := h.round_le
  unique := h.unique
  unused hone := by cases hone
  kept _ m hm heq := absurd heq (h.unused hphase m hm)

/-- Hearing of deliveries moves on to slots that are not delivered. -/
theorem Consistent.advanced (h : Consistent sent p) {adu : Nat} (habove : p.adu < adu)
    (decided : List (Nat × Value)) : Consistent sent (p.advanced adu decided) := by
  obtain ⟨hnext, hlt⟩ := nextSlot_advanced p adu decided
  constructor
  · have hlow := h.low_eq
    simp only [Proposer.advanced, Window.low_raise]
    omega
  · exact hlt
  · exact h.round_le
  · exact h.unique
  · exact h.unused
  · intro htwo m hm heq
    obtain ⟨hslot, hvalue⟩ := h.kept htwo m hm heq
    refine ⟨hslot.trans_le hnext, fun hadu => ?_⟩
    exact (valueAt_advanced p decided hadu).trans (hvalue (habove.trans hadu))

/-- Proposing what it has, for slots that are not decided. -/
theorem Consistent.propose (h : Consistent sent p) (hphase : p.phase = .two)
    (hout : ∀ o ∈ out, ∃ slot value, p.adu < slot ∧ slot < p.nextSlot ∧
      p.valueAt slot = some value ∧ o = p.proposal slot value) :
    Consistent (sent ++ out) p := by
  have hnew : ∀ {m}, Said out (.accept m) → m.round = p.round ∧ p.adu < m.slot ∧
      m.slot < p.nextSlot ∧ p.valueAt m.slot = some m.value := by
    intro m hm
    obtain ⟨slot, value, hadu, hnext, hvalue, heq⟩ := said_of_proposals hout hm
    cases heq
    exact ⟨rfl, hadu, hnext, hvalue⟩
  have hkept : ∀ m, Said (sent ++ out) (.accept m) → m.round = p.round →
      m.slot < p.nextSlot ∧ (p.adu < m.slot → p.valueAt m.slot = some m.value) := by
    intro m hm heq
    rcases said_append.mp hm with hm | hm
    · exact h.kept hphase m hm heq
    · obtain ⟨-, -, hnext, hvalue⟩ := hnew hm
      exact ⟨hnext, fun _ => hvalue⟩
  -- a new proposal and any other one of the round for its slot are both for what the proposer has
  have hsame : ∀ m m', Said out (.accept m) → Said (sent ++ out) (.accept m') →
      m.round = m'.round → m.slot = m'.slot → m.value = m'.value := by
    intro m m' hm hm' heq hslot
    obtain ⟨hround, hadu, -, hvalue⟩ := hnew hm
    have hvalue' := (hkept m' hm' (heq.symm.trans hround)).2 (hslot ▸ hadu)
    rw [← hslot, hvalue] at hvalue'
    exact Option.some.inj hvalue'
  constructor
  · exact h.low_eq
  · exact h.adu_lt
  · intro m hm
    rcases said_append.mp hm with hm | hm
    · exact h.round_le m hm
    · exact (hnew hm).1.le
  · intro m m' hm hm' heq hslot
    rcases said_append.mp hm with hold | hm
    · rcases said_append.mp hm' with hold' | hm'
      · exact h.unique m m' hold hold' heq hslot
      · exact (hsame m' m hm' hm heq.symm hslot.symm).symm
    · exact hsame m m' hm hm' heq hslot
  · intro hone
    rw [hphase] at hone
    cases hone
  · exact fun _ => hkept

/-- Giving values to further slots, and proposing them. -/
theorem Consistent.fill (h : Consistent sent p) (hfill : p.fill = .ok (p', out)) :
    Consistent (sent ++ out) p' := by
  have hout := proposals_of_fill h.adu_lt hfill
  rcases fill_cases hfill with ⟨-, rfl, rfl⟩ | ⟨-, hphase, room, f, -, hf, rfl, rfl⟩
  · rwa [List.append_nil]
  refine propose ?_ hphase hout
  constructor
  · exact hf.low_eq.trans h.low_eq
  · exact h.adu_lt.trans_le (Nat.le_add_right _ _)
  · exact h.round_le
  · exact h.unique
  · exact h.unused
  · intro htwo m hm heq
    obtain ⟨hlt, hvalue⟩ := h.kept htwo m hm heq
    refine ⟨hlt.trans_le (Nat.le_add_right _ _), fun hadu => ?_⟩
    exact (hf.value_eq m.slot (Or.inl hlt)).trans (hvalue hadu)

/-- Getting ready to propose makes no difference to what was proposed. -/
theorem Consistent.readies {taken : Option Value} (h : Consistent sent p)
    (hreadies : Readies p x p' taken) : Consistent sent p' := by
  cases hreadies with
  | @begins m topCounter ownBefore phase_eq =>
    have hgathered : Consistent sent
        { p with topCounter, promises := recordPromise p.promises m } :=
      h.congr rfl rfl (fun _ => rfl) rfl rfl (Or.inr rfl)
    exact hgathered.begun phase_eq ownBefore
  | submits => exact h.congr rfl rfl (fun _ => rfl) rfl rfl (Or.inr rfl)
  | advances adu decided above => exact h.advanced above decided

/-- **Proposals stay consistent** in every step. -/
theorem Consistent.act (h : Consistent sent p) (hact : p.act x = .ok (p', o)) :
    Consistent (sent ++ o.outbound) p' := by
  cases acts_of_act h.low_eq hact with
  | quiet same =>
    rw [List.append_nil]
    exact h.congr same.round_eq (by rw [same.window_eq])
      (fun t => by rw [valueAt, same.window_eq, valueAt]) same.adu_eq same.nextSlot_eq
      (same.phase_cases.imp And.left And.left)
  | ask _ asks => exact h.asks asks
  | gather =>
    rw [List.append_nil]
    exact h.congr rfl rfl (fun _ => rfl) rfl rfl (Or.inr rfl)
  | fill readies fills => exact (h.readies readies).fill fills
  | @resend _ window phase_eq recounted =>
    have hsame : Consistent sent { p with window } :=
      h.congr rfl recounted.low_eq recounted.valueIn_eq rfl rfl (Or.inr rfl)
    refine hsame.propose phase_eq fun o ho => ?_
    obtain ⟨slot, value, hadu, hnext, hvalue, heq⟩ := of_mem_resent ho
    exact ⟨slot, value, hadu, hnext, (recounted.valueIn_eq slot).trans hvalue, heq⟩

/-! ### Runs -/

/-- What the past of a proposer tells about its state. -/
structure Follows (id : Nat) (past : Past) (p : Proposer) : Prop where
  /-- It is the same proposer. -/
  id_eq : p.id = id
  /-- Its proposals fit its state. -/
  consistent : Consistent (said past) p
  /-- It noted what it was told of. -/
  heard_le : ∀ k ∈ heard past, k ≤ p.topCounter
  /-- It asked for promises of no round above its own. -/
  asked_le : ∀ m ∈ preparesIn (said past), m.round ≤ p.round
  /-- It asked for promises of higher and higher rounds. -/
  ascending : ((preparesIn (said past)).map Prepare.round).Pairwise (· < ·)

/-- A step asks for promises of a higher round of its own, or it keeps the round and asks for none. -/
theorem prepares_of_act (hlow : p.window.low = p.adu + 1) (h : p.act x = .ok (p', o)) :
    (preparesIn o.outbound = [] ∧ p'.round = p.round) ∨
      ∃ m, preparesIn o.outbound = [m] ∧ m.round = p'.round ∧ p.round < p'.round ∧
        p'.round.owner = p.id := by
  cases acts_of_act hlow h with
  | quiet same => exact Or.inl ⟨rfl, same.round_eq⟩
  | ask _ asks =>
    refine Or.inr ⟨⟨p.id, p'.round, p.adu⟩, ?_, rfl, asks.above, asks.owner_eq⟩
    rw [asks.out_eq]
    rfl
  | gather => exact Or.inl ⟨rfl, rfl⟩
  | fill readies fills =>
    refine Or.inl ⟨preparesIn_eq_nil (adu_of_fill fills).2, ?_⟩
    obtain ⟨_, _, _, rfl⟩ := exists_of_fill fills
    cases readies <;> rfl
  | resend =>
    refine Or.inl ⟨preparesIn_eq_nil fun m hm => ?_, rfl⟩
    obtain ⟨_, _, -, -, -, heq⟩ := said_of_proposals (fun _ => of_mem_resent) hm
    cases heq

theorem Follows.act {id : Nat} (h : Follows id past p) (hact : p.act x = .ok (p', o)) :
    Follows id (past ++ [⟨p, x, p', o⟩]) p' := by
  have hnotes := notes_of_act hact
  have hprepares := prepares_of_act h.consistent.low_eq hact
  constructor
  · exact (author_of_act h.consistent.low_eq hact).1.trans h.id_eq
  · rw [said_append_singleton]
    exact h.consistent.act hact
  · intro k hk
    rw [heard_append_singleton] at hk
    rcases List.mem_append.mp hk with hk | hk
    · exact (h.heard_le k hk).trans hnotes.top_le
    · exact hnotes.heard_le k hk
  · intro m hm
    rw [said_append_singleton, preparesIn_append] at hm
    rcases hprepares with ⟨hnone, hround⟩ | ⟨m', hone, hround, hlt, -⟩
    · rw [hnone, List.append_nil] at hm
      exact (h.asked_le m hm).trans hround.ge
    · rw [hone] at hm
      rcases List.mem_append.mp hm with hm | hm
      · exact (h.asked_le m hm).trans hlt.le
      · obtain rfl := List.mem_singleton.mp hm
        exact hround.le
  · rw [said_append_singleton, preparesIn_append, List.map_append, List.pairwise_append]
    refine ⟨h.ascending, ?_, fun r hr r' hr' => ?_⟩
    · rcases hprepares with ⟨hnone, -⟩ | ⟨m', hone, -⟩
      · simp [hnone]
      · simp [hone]
    · obtain ⟨m, hm, rfl⟩ := List.mem_map.mp hr
      obtain ⟨m', hm', rfl⟩ := List.mem_map.mp hr'
      rcases hprepares with ⟨hnone, -⟩ | ⟨m'', hone, hround, hlt, -⟩
      · rw [hnone] at hm'
        cases hm'
      · rw [hone] at hm'
        obtain rfl := List.mem_singleton.mp hm'
        rw [hround]
        exact (h.asked_le m hm).trans_lt hlt

theorem follows_of_runs {s : RoleSettings} {id : Nat} {epochs : EpochVector}
    (h : Runs act (Replica.start s id epochs).proposer p past) : Follows id past p := by
  induction h with
  | nil =>
    exact ⟨rfl, consistent_start rfl rfl rfl, by simp [heard], by simp [said, preparesIn],
      by simp [said, preparesIn]⟩
  | step _ act_eq ih => exact ih.act act_eq

/-- **One value for a slot in a round**, whatever happens to a proposer. The rounds that it asks
promises for rise; they are its own, and their counters are above those of all rounds that were told
to it before. And no two of its proposals for a slot in a round, made for the first time or again, are
for different values. -/
theorem one_value_per_round {s : RoleSettings} {id : Nat} {epochs : EpochVector}
    (h : Runs act (Replica.start s id epochs).proposer p past) :
    ((preparesIn (said past)).map Prepare.round).Pairwise (· < ·) ∧
      (∀ before t later, past = before ++ t :: later → ∀ m ∈ preparesIn t.output.outbound,
        m.round.owner = id ∧ ∀ k ∈ heard (before ++ [t]), k < m.round.counter) ∧
      ∀ m m', Said (said past) (.accept m) → Said (said past) (.accept m') →
        m.round = m'.round → m.slot = m'.slot → m.value = m'.value := by
  refine ⟨(follows_of_runs h).ascending, ?_, (follows_of_runs h).consistent.unique⟩
  rintro before t later rfl m hm
  obtain ⟨hbefore, hact⟩ := h.split
  have hfollows := follows_of_runs hbefore
  constructor
  · rcases prepares_of_act hfollows.consistent.low_eq hact with
      ⟨hnone, -⟩ | ⟨m', hone, hround, -, howner⟩
    · rw [hnone] at hm
      cases hm
    · rw [hone] at hm
      obtain rfl := List.mem_singleton.mp hm
      rw [hround, howner, hfollows.id_eq]
  · intro k hk
    have hle := (hfollows.act hact).heard_le k hk
    exact hle.trans_lt ((notes_of_act hact).asked_lt m (mem_preparesIn.mp hm))

/-- A proposer hears of a round and of a reported vote before it leads, and is above both. It proposes
a value for slot 1 twice in its first round, and another one that was reported in its second. -/
theorem one_value_per_round_of_second_round : ∃ p past,
    Runs act (Replica.start ⟨2, 3, 10, 8, .plain⟩ 0 (.zeros 3)).proposer p past ∧
    (preparesIn (said past)).map Prepare.round = [⟨5, 0⟩, ⟨10, 0⟩] ∧
    (said past).count (.broadcast (.accept ⟨0, ⟨5, 0⟩, 1, .appBatch [65], .zeros 3⟩)) = 2 ∧
    Said (said past) (.accept ⟨0, ⟨10, 0⟩, 1, .appBatch [66], .zeros 3⟩) ∧
    ∀ m m', Said (said past) (.accept m) → Said (said past) (.accept m') →
      m.round = m'.round → m.slot = m'.slot → m.value = m'.value := by
  let e : EpochVector := .zeros 3
  let v := Value.appBatch [65]
  let v' := Value.appBatch [66]
  obtain ⟨p, past, h, hrounds, htwice, hother⟩ := Runs.exists_of_replay act
    (Replica.start ⟨2, 3, 10, 8, .plain⟩ 0 e).proposer
    [.hear ⟨4, 2⟩, .trust 0, .promise ⟨2, ⟨7, 1⟩, [⟨1, ⟨9, 1⟩, v'⟩], e⟩, .submit v,
      .promise ⟨1, ⟨5, 0⟩, [], e⟩, .promise ⟨2, ⟨5, 0⟩, [], e⟩, .checkProgress,
      .trust 1, .trust 0, .promise ⟨1, ⟨10, 0⟩, [⟨1, ⟨9, 1⟩, v'⟩], e⟩,
      .promise ⟨2, ⟨10, 0⟩, [⟨1, ⟨5, 0⟩, v⟩], e⟩]
    (fun _ past => (preparesIn (said past)).map Prepare.round = [⟨5, 0⟩, ⟨10, 0⟩] ∧
      (said past).count (.broadcast (.accept ⟨0, ⟨5, 0⟩, 1, v, e⟩)) = 2 ∧
      Said (said past) (.accept ⟨0, ⟨10, 0⟩, 1, v', e⟩)) (by decide +kernel)
  exact ⟨p, past, h, hrounds, htwice, hother, (one_value_per_round h).2.2⟩

end Proposer

end ReplicatedLog
