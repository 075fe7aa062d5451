import ReplicatedLog.Proofs.FullPipeline

/-!
# Sending again

What is unanswered is sent again whenever a proposer checks for progress, but not for ever. In a round a
slot is proposed at most as often as the threshold allows, and once more (`Proposer.Bounded`): while the
proposer is in the round, the record of a slot counts how often it was sent again, and beyond the
threshold the proposer changes to another round instead.

If it hears of no deliveries, each check for progress but one adds to the count of the lowest slot that
is unanswered (`Proposer.spends_of_act`); the other one may be spent on taking note of what was delivered
before. So the proposer asks for promises again after `resendThreshold + 2` checks at the latest, even
though submitted values join the pipeline in the meantime, with counts of their own. Together this is
`bounded_resending`.
-/

namespace ReplicatedLog

namespace Proposer

variable {p p' q : Proposer} {x : Input} {o : Output} {out sent : List Outgoing}
  {past later : Past} {limit : Nat}

/-! ### How often a slot was proposed -/

/-- How often a slot was proposed in a round. -/
def times (sent : List Outgoing) (round : Round) (slot : Nat) : Nat :=
  (select Message.accept? sent).countP fun m => m.round = round ∧ m.slot = slot

@[simp]
theorem times_nil (round : Round) (slot : Nat) : times [] round slot = 0 := rfl

@[simp]
theorem times_append (sent out : List Outgoing) (round : Round) (slot : Nat) :
    times (sent ++ out) round slot = times sent round slot + times out round slot := by
  rw [times, select_append, List.countP_append]
  rfl

theorem times_eq_zero {round : Round} {slot : Nat}
    (h : ∀ m, Said sent (.accept m) → m.round = round → m.slot ≠ slot) :
    times sent round slot = 0 := by
  rw [times, List.countP_eq_zero]
  intro m hm
  obtain ⟨_, hsaid, heq⟩ := mem_select.mp hm
  rw [Message.accept?_eq_some.mp heq] at hsaid
  simpa using h m hsaid

/-- Proposals for different slots are one for each slot. -/
theorem times_proposals (p : Proposer) {slots : List (Nat × Value)}
    (hslots : (slots.map Prod.fst).Nodup) (round : Round) (slot : Nat) :
    times (slots.map fun (slot, value) => p.proposal slot value) round slot =
      if p.round = round ∧ slot ∈ slots.map Prod.fst then 1 else 0 := by
  induction slots with
  | nil => simp
  | cons s slots ih =>
    obtain ⟨hnew, hslots⟩ := List.nodup_cons.mp hslots
    have hone : times [p.proposal s.1 s.2] round slot =
        if p.round = round ∧ s.1 = slot then 1 else 0 := by
      simp [times, select, proposal, Outgoing.message, Message.accept?, List.countP_cons]
    rw [List.map_cons, ← List.singleton_append, times_append, hone, ih hslots, List.map_cons]
    by_cases hslot : s.1 = slot
    · subst hslot
      simp [hnew]
    · simp only [hslot, Ne.symm hslot, and_false, if_false, Nat.zero_add, List.mem_cons, false_or]

/-! ### The bound -/

/-- No slot was proposed more often in a round than `limit` allows. -/
structure Bounded (limit : Nat) (sent : List Outgoing) (p : Proposer) : Prop where
  /-- This is the threshold. -/
  threshold_eq : p.resendThreshold = limit
  /-- Each slot was proposed once in a round, and sent again that often at most. -/
  times_le : ∀ round t, times sent round t ≤ 1 + limit
  /-- While it proposes, the counts tell how often it sent again what is unanswered. -/
  counted : p.phase = .two → ∀ t, p.adu < t → t < p.nextSlot →
    times sent p.round t ≤ 1 + resendsIn p.window t ∧ resendsIn p.window t ≤ limit

/-- What has stopped, or goes on with some of its slots, stays within the bound. -/
theorem Bounded.congr (h : Bounded limit sent p) (hthreshold : p'.resendThreshold = p.resendThreshold)
    (hround : p'.round = p.round)
    (hslots : p'.phase = .two → p.phase = .two ∧ ∀ t, p'.adu < t → t < p'.nextSlot →
      p.adu < t ∧ t < p.nextSlot ∧ resendsIn p'.window t = resendsIn p.window t) :
    Bounded limit sent p' where
  threshold_eq := hthreshold.trans h.threshold_eq
  times_le := h.times_le
  counted htwo t hadu hnext := by
    obtain ⟨hbefore, hkept⟩ := hslots htwo
    obtain ⟨hadu', hnext', hresends⟩ := hkept t hadu hnext
    rw [hround, hresends]
    exact h.counted hbefore t hadu' hnext'

/-- What is said about other things than slots does not count. -/
theorem Bounded.append (h : Bounded limit sent p) (hout : ∀ m, ¬ Said out (.accept m)) :
    Bounded limit (sent ++ out) p := by
  have hsame : ∀ round t, times (sent ++ out) round t = times sent round t := fun round t => by
    rw [times_append, times_eq_zero fun m hm => absurd hm (hout m), Nat.add_zero]
  refine ⟨h.threshold_eq, fun round t => ?_, ?_⟩
  · rw [hsame]
    exact h.times_le round t
  · simp only [hsame]
    exact h.counted

/-- Getting ready to propose adds no slots to those that were proposed for. -/
theorem Bounded.readies {taken : Option Value} (h : Bounded limit sent p)
    (hreadies : Readies p x q taken) : Bounded limit sent q := by
  cases hreadies with
  | begins topCounter ownBefore =>
    refine ⟨h.threshold_eq, h.times_le, fun _ t (hadu : p.adu < t) (hnext : t < p.adu + 1) => ?_⟩
    omega
  | submits => exact h.congr rfl rfl fun htwo => ⟨htwo, fun t hadu hnext => ⟨hadu, hnext, rfl⟩⟩
  | advances adu decided above =>
    refine h.congr rfl rfl fun htwo => ⟨htwo, fun t (hadu : adu < t) hnext => ?_⟩
    refine ⟨above.trans hadu, ?_, resendsIn_raise _ hadu⟩
    simp only [advanced] at hnext
    split at hnext <;> omega

/-- Filling the pipeline proposes for slots that were not proposed for in the round. -/
theorem Bounded.fill (h : Bounded limit sent p) (hconsistent : Consistent sent p)
    (hfill : p.fill = .ok (p', out)) : Bounded limit (sent ++ out) p' := by
  rcases fill_cases hfill with ⟨-, rfl, rfl⟩ | ⟨-, htwo, room, f, rfl, hf, rfl, rfl⟩
  · rwa [List.append_nil]
  have hresets := fillFrom_resets room p.nextSlot p.window p.queue
  generalize fillFrom room p.nextSlot p.window p.queue = f at *
  have htimes : ∀ round t, times (f.sent.map fun (slot, value) => p.proposal slot value) round t =
      if p.round = round ∧ p.nextSlot ≤ t ∧ t < p.nextSlot + f.sent.length then 1 else 0 := by
    intro round t
    rw [times_proposals p (hf.slots ▸ List.nodup_range'), hf.slots]
    simp only [List.mem_range'_1]
  have hnew : ∀ t, p.nextSlot ≤ t → times sent p.round t = 0 := fun t ht =>
    times_eq_zero fun m hm hround => ((hconsistent.kept htwo m hm hround).1.trans_le ht).ne
  refine ⟨h.threshold_eq, fun round t => ?_, fun _ t hadu (hnext : t < p.nextSlot + _) => ?_⟩
  · rw [times_append, htimes]
    split
    · rename_i hproposed
      rw [← hproposed.1, hnew t hproposed.2.1]
      omega
    · exact h.times_le round t
  · rw [times_append, htimes]
    show times sent p.round t + _ ≤ 1 + resendsIn f.window t ∧ resendsIn f.window t ≤ limit
    rw [hresets t]
    by_cases ht : p.nextSlot ≤ t
    · rw [hnew t ht, if_pos ⟨rfl, ht, hnext⟩, if_pos ⟨ht, hnext⟩]
      exact ⟨Nat.le_refl 1, Nat.zero_le _⟩
    · rw [if_neg (fun hin => ht hin.2.1), if_neg (fun hin => ht hin.1)]
      exact h.counted htwo t hadu (Nat.not_le.mp ht)

/-- What is sent again counts as such, and was not sent too often yet. -/
theorem Bounded.resend {window : Window Proposal} (h : Bounded limit sent p)
    (htwo : p.phase = .two) (hrecounted : p.Recounted window)
    (hbelow : ∀ slot ∈ p.unanswered.map Prod.fst, resendsIn p.window slot < p.resendThreshold) :
    Bounded limit (sent ++ p.resent) { p with window } := by
  have hcounted : ∀ t ∈ p.unanswered.map Prod.fst,
      times sent p.round t ≤ 1 + resendsIn p.window t ∧ resendsIn p.window t + 1 ≤ limit := by
    intro t ht
    obtain ⟨⟨_, value⟩, hmem, rfl⟩ := List.mem_map.mp ht
    obtain ⟨hadu, hnext, -⟩ := mem_unanswered.mp hmem
    exact ⟨(h.counted htwo _ hadu hnext).1, h.threshold_eq ▸ hbelow _ ht⟩
  refine ⟨h.threshold_eq, fun round t => ?_, fun _ t hadu hnext => ?_⟩
  · rw [times_append, resent, times_proposals p p.nodup_unanswered]
    split
    · rename_i hagain
      obtain ⟨htimes, hle⟩ := hcounted t hagain.2
      rw [← hagain.1]
      omega
    · exact h.times_le round t
  · rw [times_append, resent, times_proposals p p.nodup_unanswered]
    show times sent p.round t + _ ≤ 1 + resendsIn window t ∧ resendsIn window t ≤ limit
    rw [hrecounted.resendsIn_eq]
    by_cases ht : t ∈ p.unanswered.map Prod.fst
    · obtain ⟨htimes, hle⟩ := hcounted t ht
      rw [if_pos ⟨rfl, ht⟩, if_pos ht]
      omega
    · rw [if_neg (fun hin => ht hin.2), if_neg ht]
      exact h.counted htwo t hadu hnext

/-- **The bound is kept** in every step. -/
theorem Bounded.act (h : Bounded limit sent p) (hconsistent : Consistent sent p)
    (hact : p.act x = .ok (p', o)) : Bounded limit (sent ++ o.outbound) p' := by
  have hthreshold := (setUp_of_act hact).1.threshold_eq
  cases acts_of_act hconsistent.low_eq hact with
  | quiet same =>
    rw [List.append_nil]
    refine h.congr hthreshold same.round_eq fun htwo => ?_
    rcases same.phase_cases with ⟨hidle, -⟩ | ⟨hphase, -⟩
    · rw [hidle] at htwo
      cases htwo
    · refine ⟨hphase ▸ htwo, fun t hadu hnext => ?_⟩
      rw [same.adu_eq] at hadu
      rw [same.nextSlot_eq] at hnext
      exact ⟨hadu, hnext, by rw [same.window_eq]⟩
  | ask _ asks =>
    refine ⟨hthreshold.trans h.threshold_eq, (h.append fun m hm => ?_).times_le, fun htwo => ?_⟩
    · simp [asks.out_eq, Outgoing.message] at hm
    · rw [asks.phase_eq] at htwo
      cases htwo
  | gather =>
    rw [List.append_nil]
    exact h.congr rfl rfl fun htwo => ⟨htwo, fun t hadu hnext => ⟨hadu, hnext, rfl⟩⟩
  | fill readies fills => exact (h.readies readies).fill (hconsistent.readies readies) fills
  | resend phase_eq recounted below => exact h.resend phase_eq recounted below

theorem bounded_of_runs {s : RoleSettings} {id : Nat} {epochs : EpochVector}
    (h : Runs act (Replica.start s id epochs).proposer p past) :
    Bounded s.resendThreshold (said past) p := by
  induction h with
  | nil => exact ⟨rfl, fun _ _ => Nat.zero_le _, fun htwo => nomatch htwo⟩
  | step run act_eq ih =>
    rw [said_append_singleton]
    exact ih.act (follows_of_runs run).consistent act_eq

/-! ### The checks that are spent -/

/-- Neither tells of deliveries nor makes the proposer of a replica stop. -/
def Input.Stalls (id : Nat) : Input → Prop
  | .noteDelivered _ _ => False
  | .trust leader => leader = id
  | _ => True

instance (id : Nat) (x : Input) : Decidable (x.Stalls id) :=
  match x with
  | .noteDelivered _ _ => inferInstanceAs (Decidable False)
  | .trust leader => inferInstanceAs (Decidable (leader = id))
  | .promise _ | .submit _ | .hear _ | .retry | .checkProgress | .setEpochs _ =>
    inferInstanceAs (Decidable True)

/-- The number of checks for progress. -/
def checks (past : Past) : Nat := past.countP fun t => t.input = .checkProgress

/-- How many checks for progress a state accounts for: one that took note of what was delivered, and one
for each time that the lowest slot that is not decided was sent again. -/
def spent (p : Proposer) : Nat :=
  resendsIn p.window (p.adu + 1) + if p.checkedAdu < p.adu then 0 else 1

/-- The second is the first later on, still in the round, with nothing more delivered, after at least
`n` checks for progress. -/
structure Persists (n : Nat) (p p' : Proposer) : Prop where
  /-- It leads as before. -/
  leads : p'.isLeader = true
  /-- It proposes as before. -/
  phase_eq : p'.phase = .two
  /-- It is in the same round. -/
  round_eq : p'.round = p.round
  /-- The same slots are decided. -/
  adu_eq : p'.adu = p.adu
  /-- It has proposed for as many slots, or more. -/
  nextSlot_le : p.nextSlot ≤ p'.nextSlot
  /-- The checks are spent. -/
  spent_le : p.spent + n ≤ p'.spent

theorem Persists.trans {p'' : Proposer} {m n : Nat} (h : Persists m p p') (h' : Persists n p' p'') :
    Persists (m + n) p p'' where
  leads := h'.leads
  phase_eq := h'.phase_eq
  round_eq := h'.round_eq.trans h.round_eq
  adu_eq := h'.adu_eq.trans h.adu_eq
  nextSlot_le := h.nextSlot_le.trans h'.nextSlot_le
  spent_le := by
    have hle := h.spent_le
    have hle' := h'.spent_le
    omega

/-- A change of other things than the counts spends nothing. -/
theorem Persists.of_eq (hleads : p'.isLeader = true) (htwo : p'.phase = .two)
    (hround : p'.round = p.round) (hadu : p'.adu = p.adu) (hnext : p.nextSlot ≤ p'.nextSlot)
    (hchecked : p'.checkedAdu = p.checkedAdu)
    (hresends : resendsIn p'.window (p.adu + 1) = resendsIn p.window (p.adu + 1)) :
    Persists 0 p p' where
  leads := hleads
  phase_eq := htwo
  round_eq := hround
  adu_eq := hadu
  nextSlot_le := hnext
  spent_le := by rw [spent, spent, hadu, hchecked, hresends, Nat.add_zero]

/-- Filling the pipeline leaves the counts of earlier slots alone. -/
theorem persists_of_fill (hleads : p.isLeader = true) (htwo : p.phase = .two)
    (hopen : p.adu + 1 < p.nextSlot) (h : p.fill = .ok (p', out)) : Persists 0 p p' := by
  rcases fill_cases h with ⟨hidle, -⟩ | ⟨-, -, room, f, rfl, -, rfl, -⟩
  · exact absurd ⟨hleads, htwo⟩ hidle
  · refine .of_eq hleads htwo rfl rfl (Nat.le_add_right _ _) rfl ?_
    rw [fillFrom_resets, if_neg (by omega)]

/-- A check for progress is spent, or it makes the proposer ask for promises again. -/
theorem persists_of_checkProgress (hlow : p.window.low = p.adu + 1) (hleads : p.isLeader = true)
    (htwo : p.phase = .two) (hopen : p.adu + 1 < p.nextSlot) (hvalue : (p.valueAt (p.adu + 1)).isSome = true)
    (h : p.checkProgress = .ok (p', out)) :
    Persists 1 p p' ∨ ∃ m, .broadcast (.prepare m) ∈ out ∧ p.round < m.round := by
  cases checks_of_checkProgress h with
  | rests idle => exact absurd ⟨hleads, htwo⟩ idle
  | notes behind =>
    refine Or.inl ⟨hleads, htwo, rfl, rfl, Nat.le_refl _, ?_⟩
    simp [spent, behind]
  | @renews window _ _ _ low_eq _ asks =>
    obtain ⟨round, _, hround, -, -, -, -, -, -, -, -, rfl⟩ :=
      askPromises_cases (p := { p with window }) (low_eq.trans hlow) asks
    exact Or.inr ⟨_, List.mem_singleton_self _, hround⟩
  | @resends window _ stuck recounted =>
    obtain ⟨value, hsome⟩ := Option.isSome_iff_exists.mp hvalue
    have hmem : p.adu + 1 ∈ p.unanswered.map Prod.fst :=
      List.mem_map.mpr ⟨_, mem_unanswered.mpr ⟨Nat.lt_succ_self _, hopen, hsome⟩, rfl⟩
    refine Or.inl ⟨hleads, htwo, rfl, rfl, Nat.le_refl _, ?_⟩
    show _ ≤ resendsIn window (p.adu + 1) + _
    rw [recounted.resendsIn_eq, if_pos hmem, spent]
    exact (Nat.add_right_comm _ _ _).le

/-- **Each check is spent** as long as nothing is delivered and the proposer does not stop, unless it
asks for promises again. -/
theorem persists_of_act (hlow : p.window.low = p.adu + 1) (hleads : p.isLeader = true)
    (htwo : p.phase = .two) (hopen : p.adu + 1 < p.nextSlot) (hvalue : (p.valueAt (p.adu + 1)).isSome = true)
    (hx : x.Stalls p.id) (h : p.act x = .ok (p', o)) :
    Persists (if x = .checkProgress then 1 else 0) p p' ∨
      ∃ m, .broadcast (.prepare m) ∈ o.outbound ∧ p.round < m.round := by
  have hkept : ∀ {q : Proposer}, q.isLeader = true → q.phase = .two → q.round = p.round →
      q.adu = p.adu → q.nextSlot = p.nextSlot → q.checkedAdu = p.checkedAdu →
      q.window = p.window → Persists 0 p q := fun hleads htwo hround hadu hnext hchecked hwindow =>
    .of_eq hleads htwo hround hadu hnext.ge hchecked (by rw [hwindow])
  cases x with
  | trust leader =>
    obtain rfl : leader = p.id := hx
    obtain ⟨⟨p₁, outbound⟩, htrust, hret⟩ := Checked.bind_eq_ok_iff.mp h
    cases hret
    have hstays : p.trust p.id = .ok ({ p with leader := some p.id }, []) := by
      simp [trust, hleads, htwo]
    rw [hstays] at htrust
    cases htrust
    exact Or.inl (hkept (isLeader_iff.mpr rfl) htwo rfl rfl rfl rfl rfl)
  | promise m =>
    obtain ⟨⟨p₁, outbound⟩, hpromise, hret⟩ := Checked.bind_eq_ok_iff.mp h
    cases hret
    obtain ⟨topCounter, ⟨-, rfl, -⟩ | ⟨hone, -⟩⟩ := promise_cases hpromise
    · exact Or.inl (hkept hleads htwo rfl rfl rfl rfl rfl)
    · rw [htwo] at hone
      cases hone
  | submit value =>
    obtain ⟨⟨p₁, result⟩, hsubmit, hret⟩ := Checked.bind_eq_ok_iff.mp h
    rcases submit_cases hsubmit with ⟨rfl, fault, rfl⟩ | ⟨-, outbound, rfl, hfill⟩
    · cases hret
      exact Or.inl (hkept hleads htwo rfl rfl rfl rfl rfl)
    · cases hret
      have hqueued : Persists 0 p { p with queue := p.queue ++ [value] } :=
        hkept hleads htwo rfl rfl rfl rfl rfl
      exact Or.inl (hqueued.trans (persists_of_fill hleads htwo hopen hfill))
  | hear round =>
    cases h
    exact Or.inl (hkept hleads htwo rfl rfl rfl rfl rfl)
  | noteDelivered => exact hx.elim
  | retry =>
    obtain ⟨⟨p₁, outbound⟩, hretry, hret⟩ := Checked.bind_eq_ok_iff.mp h
    cases hret
    have hrests : p.retry = .ok (p, []) := by simp [retry, htwo]
    rw [hrests] at hretry
    cases hretry
    exact Or.inl (hkept hleads htwo rfl rfl rfl rfl rfl)
  | checkProgress =>
    obtain ⟨⟨p₁, outbound⟩, hcheck, hret⟩ := Checked.bind_eq_ok_iff.mp h
    cases hret
    exact persists_of_checkProgress hlow hleads htwo hopen hvalue hcheck
  | setEpochs epochs =>
    cases h
    exact Or.inl (hkept hleads htwo rfl rfl rfl rfl rfl)

/-! ### Runs -/

section Runs

variable {s : RoleSettings} {id : Nat} {epochs : EpochVector}

/-- A proposer that proposes has a value for the lowest slot that is not decided, if it proposed for
it. -/
theorem isSome_valueAt_of_runs (h : Runs act (Replica.start s id epochs).proposer p past)
    (htwo : p.phase = .two) (hopen : p.adu + 1 < p.nextSlot) :
    (p.valueAt (p.adu + 1)).isSome = true := by
  obtain ⟨last, hlast⟩ := unbroken_of_runs h
  have hnext := hlast.nextSlot_le htwo
  exact (hlast.isSome_iff _ (Nat.lt_succ_self _)).mpr (by omega)

/-- Every check of a run is spent, unless the proposer asks for promises again. -/
theorem persists_of_runs (h : Runs act (Replica.start s id epochs).proposer p past)
    (htwo : p.phase = .two) (hopen : p.adu + 1 < p.nextSlot) (h' : Runs act p p' later)
    (hstalls : ∀ t ∈ later, t.input.Stalls id) :
    Persists (checks later) p p' ∨
      ∃ m, .broadcast (.prepare m) ∈ said later ∧ p.round < m.round := by
  induction h' with
  | nil =>
    have hleads := (mandated_of_runs h).leads (by simp [htwo])
    exact Or.inl (.of_eq hleads htwo rfl rfl (Nat.le_refl _) rfl rfl)
  | @step q q' x o later run act_eq ih =>
    simp only [List.forall_mem_append, List.forall_mem_singleton] at hstalls
    rw [said_append_singleton]
    rcases ih hstalls.1 with hpersists | ⟨m, hm, hround⟩
    · have hreached := h.trans run
      have hfollows := follows_of_runs hreached
      have hadu := hpersists.adu_eq
      have hopen' : q.adu + 1 < q.nextSlot := hadu ▸ hopen.trans_le hpersists.nextSlot_le
      have hvalue := isSome_valueAt_of_runs hreached hpersists.phase_eq hopen'
      rcases persists_of_act hfollows.consistent.low_eq hpersists.leads hpersists.phase_eq hopen'
        hvalue (hfollows.id_eq ▸ hstalls.2) act_eq with hstep | ⟨m, hm, hround⟩
      · refine Or.inl ?_
        have hchecks : checks (later ++ [⟨q, x, q', o⟩]) =
            checks later + if x = .checkProgress then 1 else 0 := by
          simp [checks, List.countP_append, List.countP_cons]
        rw [hchecks]
        exact hpersists.trans hstep
      · rw [hpersists.round_eq] at hround
        exact Or.inr ⟨m, List.mem_append_right _ hm, hround⟩
    · exact Or.inr ⟨m, List.mem_append_left _ hm, hround⟩

/-- **Sending again is bounded**, whatever happens to a proposer. In a round it proposes a slot once, and
again as often as the threshold allows at most. And if it has proposed for a slot that is not decided,
and then hears of no deliveries and is not told to trust another replica, it asks everybody for promises
of a higher round by the time that it has checked for progress twice more often than the threshold. -/
theorem bounded_resending (h : Runs act (Replica.start s id epochs).proposer p past) :
    (∀ round slot, times (said past) round slot ≤ 1 + s.resendThreshold) ∧
      (p.phase = .two → p.adu + 1 < p.nextSlot → ∀ p' later, Runs act p p' later →
        (∀ t ∈ later, t.input.Stalls id) → s.resendThreshold + 2 ≤ checks later →
        ∃ m, .broadcast (.prepare m) ∈ said later ∧ p.round < m.round) := by
  refine ⟨(bounded_of_runs h).times_le, fun htwo hopen p' later h' hstalls hchecks => ?_⟩
  apply (persists_of_runs h htwo hopen h' hstalls).resolve_left
  intro hpersists
  have hopen' := hopen.trans_le hpersists.nextSlot_le
  rw [← hpersists.adu_eq] at hopen'
  obtain ⟨-, hle⟩ := (bounded_of_runs (h.trans h')).counted hpersists.phase_eq (p'.adu + 1)
    (Nat.lt_succ_self _) hopen'
  have hspent := hpersists.spent_le
  have hmost : p'.spent ≤ resendsIn p'.window (p'.adu + 1) + 1 :=
    Nat.add_le_add_left (by split <;> omega) _
  omega

/-- With a threshold of one, slot 2 is proposed twice in the first round. Of the three checks the first
one only takes note that slot 1 was delivered, the second one sends slots 2 and 3 again, and the third
one gives the round up, although values, a promise and a view of the membership arrived in the
meantime. -/
theorem bounded_resending_of_third_check : ∃ p past p' later,
    Runs act (Replica.start ⟨2, 3, 1, 8, .plain⟩ 0 (.zeros 3)).proposer p past ∧
    p.phase = .two ∧ p.adu + 1 < p.nextSlot ∧ Runs act p p' later ∧
    (∀ t ∈ later, t.input.Stalls 0) ∧ 1 + 2 ≤ checks later ∧
    times (said (past ++ later)) ⟨1, 0⟩ 2 = 2 ∧ times (said (past ++ later)) ⟨1, 0⟩ 2 ≤ 1 + 1 ∧
    ∃ m, .broadcast (.prepare m) ∈ said later ∧ p.round < m.round := by
  let e : EpochVector := .zeros 3
  let v (n : UInt8) : Value := .appBatch [n]
  let inputs : List Input := [.checkProgress, .submit (v 67), .promise ⟨0, ⟨1, 0⟩, [], e⟩, .trust 0,
    .checkProgress, .setEpochs ⟨[0, 1, 0]⟩, .retry, .submit (v 68), .checkProgress]
  obtain ⟨p, past, h, htwo, hopen, hreplay⟩ := Runs.exists_of_replay act
    (Replica.start ⟨2, 3, 1, 8, .plain⟩ 0 e).proposer
    [.trust 0, .submit (v 65), .promise ⟨1, ⟨1, 0⟩, [], e⟩, .promise ⟨2, ⟨1, 0⟩, [], e⟩,
      .noteDelivered 1 [(1, v 65)], .submit (v 66)]
    (fun p past => p.phase = .two ∧ p.adu + 1 < p.nextSlot ∧
      (Runs.replay act p [] inputs).any (fun r => decide ((∀ t ∈ r.2, t.input.Stalls 0) ∧
        1 + 2 ≤ checks r.2 ∧ times (said (past ++ r.2)) ⟨1, 0⟩ 2 = 2)) = true) (by decide +kernel)
  obtain ⟨p', later, h', hstalls, hchecks, htwice⟩ := Runs.exists_of_replay act p inputs
    (fun _ later => (∀ t ∈ later, t.input.Stalls 0) ∧ 1 + 2 ≤ checks later ∧
      times (said (past ++ later)) ⟨1, 0⟩ 2 = 2) hreplay
  exact ⟨p, past, p', later, h, htwo, hopen, h', hstalls, hchecks, htwice,
    (bounded_resending (h.trans h')).1 _ _,
    (bounded_resending h).2 htwo hopen p' later h' hstalls hchecks⟩

end Runs

end Proposer

end ReplicatedLog
