import ReplicatedLog.Proofs.Agreement
import ReplicatedLog.Proofs.LearnerRuns

/-!
# How much is kept

Acceptors and learners keep what is within their retention, so what they tell others is bounded. A
promise reports votes in ascending order, of no more slots than the retention and one, as long as the
acceptor takes over no votes of others (`Reachable.length_reports_le`). An answer lists no more slots
than the retention (`Reachable.length_decided_le`). Only a request for missing slots is bounded by
the log alone: a learner may see any number of gaps (`Reachable.length_ranges_le`).
-/

namespace ReplicatedLog

variable {c : ReplicaSettings} {Env : World → Event → Prop} {w : World} {last : Nat}

/-- Numbers in ascending order between two bounds are no more than fit between them. -/
theorem length_le_of_sorted {xs : List Nat} {low high : Nat} (hsorted : xs.Pairwise (· < ·))
    (hbounds : ∀ x ∈ xs, low ≤ x ∧ x < high) : xs.length ≤ high - low := by
  have hnodup : xs.Nodup := hsorted.imp Nat.ne_of_lt
  have hsubset : xs ⊆ List.range' low (high - low) := by
    intro x hx
    have hbound := hbounds x hx
    rw [List.mem_range'_1]
    omega
  simpa using (hnodup.subperm hsubset).length_le

/-! ### Acceptors -/

/-- Promises report votes in ascending order. -/
theorem Reachable.sorted_reports (h : Reachable c Env w) {m : Promise}
    (hm : Said w.sent (.promise m)) : (m.reports.map Report.slot).Pairwise (· < ·) := by
  refine h.acceptors (P := fun i _ sent => ∀ m : Promise, Said sent (.promise m) → m.sender = i →
    (m.reports.map Report.slot).Pairwise (· < ·)) (fun i m hm => absurd hm not_said_nil) ?_ ?_
    m.sender m hm rfl
  · intro i a sent out hout ih m hm hi
    exact ih m (Acceptor.promise_of_author_ne hout hi hm) hi
  · intro w i x a out hw henv hallowed ih hact m hm hi
    rcases said_append.mp hm with hm | hm
    · exact ih m hm hi
    by_cases hx : ∀ s, x ≠ .takeOver s
    · cases Acceptor.acts_of_act hx hact with
      | quiet => exact absurd hm not_said_nil
      | promise _ _ _ _ sorted =>
        rw [said_singleton, Outgoing.message, Message.promise.injEq] at hm
        exact hm ▸ sorted
      | vote =>
        rw [said_singleton, Outgoing.message] at hm
        cases hm
    · obtain ⟨s, rfl⟩ : ∃ s, x = .takeOver s := by simpa using hx
      cases hact
      exact absurd hm not_said_nil

/-- An acceptor with its retention: it holds votes and reported votes within it. -/
structure Acceptor.Within (retention : Nat) (sent : List Outgoing) (i : Nat) (a : Acceptor) : Prop where
  /-- It keeps as many slots. -/
  retention_eq : a.retention = retention
  /-- It holds votes within its retention. -/
  held_le : ∀ slot rep, a.voteFor slot = some rep → slot ≤ a.window.low + retention
  /-- It reported votes within its retention. -/
  reported_le : ∀ m, Said sent (.promise m) → m.sender = i →
    ∃ low, ∀ rep ∈ m.reports, low ≤ rep.slot ∧ rep.slot ≤ low + retention

/-- Giving up slots keeps an acceptor within its retention. -/
theorem Acceptor.Within.held_le_of_keeps {retention i mark : Nat} {sent : List Outgoing}
    {a a' : Acceptor} (h : Within retention sent i a) (keeps : Keeps mark a a') (slot : Nat)
    (rep : Report) (hrep : a'.voteFor slot = some rep) : slot ≤ a'.window.low + retention := by
  rw [keeps.voteFor_eq] at hrep
  split at hrep
  · cases hrep
  · have hle := h.held_le slot rep hrep
    have hlow := keeps.low_le
    omega

/-- **Acceptors stay within their retention**, as long as none takes over votes of others. -/
theorem Reachable.acceptor_within (hordinary : ∀ w e, Env w e → e.Ordinary) (h : Reachable c Env w)
    (i : Nat) : (w.acceptors i).Within c.retention w.sent i := by
  refine h.acceptors (P := fun i a sent => a.Within c.retention sent i) (fun i => ?_) ?_ ?_ i
  · refine ⟨rfl, fun slot rep hrep => ?_, fun m hm => absurd hm not_said_nil⟩
    have hblank : (({} : Window Vote).get? slot).bind (fun vote => vote.report? slot) = some rep := hrep
    rw [Window.get?_empty] at hblank
    cases hblank
  · intro i a sent out hout ih
    exact ⟨ih.retention_eq, ih.held_le, fun m hm hi =>
      ih.reported_le m (Acceptor.promise_of_author_ne hout hi hm) hi⟩
  · intro w i x a out hw henv hallowed ih hact
    have htake : ∀ s, x ≠ .takeOver s := by
      rintro s rfl
      exact hordinary w _ henv
    cases Acceptor.acts_of_act htake hact with
    | quiet round_eq keeps =>
      rw [List.append_nil]
      exact ⟨keeps.retention_eq.trans ih.retention_eq, ih.held_le_of_keeps keeps, ih.reported_le⟩
    | promise above round_eq keeps mem_reports =>
      have hheld := ih.held_le_of_keeps keeps
      refine ⟨keeps.retention_eq.trans ih.retention_eq, hheld, fun m hm hi => ?_⟩
      rcases said_append.mp hm with hm | hm
      · exact ih.reported_le m hm hi
      · rw [said_singleton, Outgoing.message, Message.promise.injEq] at hm
        subst hm
        refine ⟨a.window.low, fun rep hrep => ?_⟩
        obtain ⟨-, hvote, -⟩ := (mem_reports rep).mp hrep
        exact ⟨Acceptor.low_le_of_voteFor hvote, hheld _ _ hvote⟩
    | @vote m _ _ _ _ retention_eq low_le _ _ voteFor_eq slot_le =>
      rw [ih.retention_eq] at slot_le
      refine ⟨retention_eq.trans ih.retention_eq, fun slot rep hrep => ?_, fun m' hm' hi => ?_⟩
      · rw [voteFor_eq] at hrep
        split at hrep
        · rename_i hslot
          exact hslot ▸ slot_le
        split at hrep
        · cases hrep
        · have hle := ih.held_le slot rep hrep
          omega
      · refine ih.reported_le m' ((said_append.mp hm').resolve_right ?_) hi
        simp [Outgoing.message]

/-- A promise reports votes for no more slots than were proposed for and, as long as acceptors take
over no votes of others, than the retention and one. -/
theorem Reachable.length_reports_le (h : Reachable c Env w) (hlast : ProposedUpTo last w.sent)
    {m : Promise} (hm : Said w.sent (.promise m)) :
    m.reports.length ≤ last + 1 ∧
      ((∀ w e, Env w e → e.Ordinary) → m.reports.length ≤ c.retention + 1) := by
  have hsorted := h.sorted_reports hm
  constructor
  · have hbounds : ∀ slot ∈ m.reports.map Report.slot, 0 ≤ slot ∧ slot < last + 1 := by
      intro slot hslot
      obtain ⟨rep, hrep, rfl⟩ := List.mem_map.mp hslot
      have hle := hlast _ _ _ (h.honest.reported m hm rep hrep).1
      omega
    simpa using length_le_of_sorted hsorted hbounds
  · intro hordinary
    obtain ⟨low, hreported⟩ := (h.acceptor_within hordinary m.sender).reported_le m hm rfl
    have hbounds : ∀ slot ∈ m.reports.map Report.slot,
        low ≤ slot ∧ slot < low + (c.retention + 1) := by
      intro slot hslot
      obtain ⟨rep, hrep, rfl⟩ := List.mem_map.mp hslot
      have hrange := hreported rep hrep
      omega
    simpa using length_le_of_sorted hsorted hbounds

/-! ### Learners -/

/-- A learner with its retention: it marked slots as delivered that it delivered, keeps those within
its retention, and asked for and answered with slots in ascending order. -/
structure Learner.Within (q retention : Nat) (sent : List Outgoing) (i : Nat) (l : Learner) :
    Prop where
  /-- It keeps as many slots. -/
  retention_eq : l.retention = retention
  /-- The slots that it gave up are behind its retention. -/
  next_le : l.next ≤ l.window.low + retention
  /-- What it marked was delivered. -/
  decided_lt : ∀ slot, (l.tally slot).decided = true → slot < l.next
  /-- It asked for ranges that follow each other, below a slot that was decided. -/
  asked : ∀ m, Said sent (.catchUpRequest m) → m.sender = i →
    m.ranges.Pairwise (fun a b => a.2 < b.1) ∧ ∃ last v, Decided q sent last v ∧
      ∀ range ∈ m.ranges, range.1 ≤ range.2 ∧ range.2 < last
  /-- It answered with no more slots than it keeps. -/
  answered : ∀ m, Said sent (.catchUpResponse m) → m.sender = i →
    m.decided.length ≤ retention

namespace Learner

variable {q retention i : Nat} {sent out : List Outgoing} {l l' : Learner}

/-- What others say does not concern it. -/
theorem Within.append (h : Within q retention sent i l)
    (hout : ∀ o ∈ out, o.author ≠ (.learner, i)) : Within q retention (sent ++ out) i l where
  retention_eq := h.retention_eq
  next_le := h.next_le
  decided_lt := h.decided_lt
  asked m hm hi := by
    have hsaid : Said sent (.catchUpRequest m) :=
      said_of_author_ne (fun o ho heq => hout o ho (heq.trans (congrArg (Role.learner, ·) hi))) hm
    obtain ⟨hpairwise, slot, v, hdecided, hbounds⟩ := h.asked m hsaid hi
    exact ⟨hpairwise, slot, v, hdecided.append out, hbounds⟩
  answered m hm hi := by
    refine h.answered m (said_of_author_ne (fun o ho heq => hout o ho ?_) hm) hi
    exact heq.trans (congrArg (Role.learner, ·) hi)

/-- What a step marks was delivered. -/
theorem decided_lt_of_act {x : Input} {d : Delivery}
    (h : ∀ slot, (l.tally slot).decided = true → slot < l.next) (hact : l.act x = .ok (l', d))
    (slot : Nat) (hslot : (l'.tally slot).decided = true) : slot < l'.next := by
  obtain ⟨hnext, hslots⟩ := next_of_act hact
  obtain ⟨tally, hchanges, -, heq⟩ := exists_tally_of_act hact
  rw [heq slot (Window.low_le_of_get? (get?_of_decided hslot)), Bool.or_eq_true,
    decide_eq_true_eq, hslots, List.mem_range'_1, (hchanges slot).decided_eq] at hslot
  rcases hslot with hslot | hslot
  · have hlt := h slot hslot
    omega
  · omega

/-- A learner that delivers stays within its retention. -/
theorem next_le_of_act {x : Input} {d : Delivery} (h : l.next ≤ l.window.low + l.retention)
    (hact : l.act x = .ok (l', d)) : l'.next ≤ l'.window.low + l.retention := by
  obtain ⟨-, hlow⟩ := low_of_act hact
  obtain ⟨hnext, -⟩ := next_of_act hact
  rw [hlow]
  split
  · rename_i hnone
    rw [hnone, List.length_nil] at hnext
    omega
  · omega

end Learner

/-- **Learners stay within their retention.** -/
theorem Reachable.learner_within (h : Reachable c Env w) (i : Nat) :
    (w.learners i).Within c.quorum c.retention w.sent i := by
  refine h.learners (P := fun i l _ sent => l.Within c.quorum c.retention sent i) (fun i => ?_) ?_ ?_ i
  · refine ⟨rfl, Nat.le_add_right 1 _, fun slot hslot => ?_, fun m hm => absurd hm not_said_nil,
      fun m hm => absurd hm not_said_nil⟩
    have hblank : ((({} : Window Tally).get? slot).getD default).decided = true := hslot
    rw [Window.get?_empty] at hblank
    cases hblank
  · intro i l log sent out hout ih
    exact ih.append hout
  · intro w i x l d hw _ hallowed ih hact
    have hrec := hw.recorded_of_act hallowed hact
    have hid := (Learner.author_of_act hact).1.trans (hw.ids i).2.1
    have hretention := (Learner.low_of_act hact).1.trans (ih i).retention_eq
    have hnext := Learner.next_le_of_act ((ih i).retention_eq.symm ▸ (ih i).next_le) hact
    rw [(ih i).retention_eq] at hnext
    have hdecided := Learner.decided_lt_of_act (ih i).decided_lt hact
    -- what it says now are requests, or the answer to a request
    have hrequest : (∀ o ∈ d.outbound, l.IsRequest o) →
        l.Within c.quorum c.retention (w.sent ++ d.outbound) i := by
      intro hout
      refine ⟨hretention, hnext, hdecided, fun m hm hi => ?_, fun m hm hi => ?_⟩
      · rcases said_append.mp hm with hm | ⟨o, ho, heq⟩
        · obtain ⟨hpairwise, slot, v, hchosen, hbounds⟩ := (ih i).asked m hm hi
          exact ⟨hpairwise, slot, v, hchosen.append _, hbounds⟩
        · obtain ⟨target, ranges, rfl, hpairwise, slot, hlearned, hbounds⟩ := hout o ho
          cases heq
          obtain ⟨v, hv⟩ := Option.isSome_iff_exists.mp hlearned
          exact ⟨hpairwise, slot, v, (hrec.sound slot).learned v hv,
            fun range hrange => (hbounds range hrange).2⟩
      · rcases said_append.mp hm with hm | hm
        · exact (ih i).answered m hm hi
        · exact absurd hi (Learner.response_ne_of_isRequest hout m hm)
    cases Learner.acts_of_act hact with
    | quiet _ _ _ _ _ _ isRequest => exact hrequest isRequest
    | @answer m target decided learned_of_mem decided_of_mem sorted =>
      refine ⟨hretention, hnext, hdecided, fun m' hm' hi => ?_, fun m' hm' hi => ?_⟩
      · obtain ⟨hpairwise, slot, v, hchosen, hbounds⟩ :=
          (ih i).asked m' ((said_append.mp hm').resolve_right (by simp [Outgoing.message])) hi
        exact ⟨hpairwise, slot, v, hchosen.append _, hbounds⟩
      · rcases said_append.mp hm' with hm' | hm'
        · exact (ih i).answered m' hm' hi
        · rw [said_singleton, Outgoing.message, Message.catchUpResponse.injEq] at hm'
          subst hm'
          have hasked := (ih m.sender).asked m (World.said_of_arrives hallowed.2) rfl
          have hbounds : ∀ slot ∈ decided.map Prod.fst,
              (w.learners i).window.low ≤ slot ∧ slot < (w.learners i).next := by
            intro slot hslot
            obtain ⟨⟨slot, v⟩, hmem, rfl⟩ := List.mem_map.mp hslot
            obtain ⟨hlow, hmarked⟩ := decided_of_mem slot v hmem
            exact ⟨hlow, (ih i).decided_lt slot hmarked⟩
          have hlength := length_le_of_sorted (sorted hasked.1) hbounds
          rw [List.length_map] at hlength
          have hnext := (ih i).next_le
          dsimp only
          omega
    | count => exact hrequest (by simp)
    | settle _ _ _ _ _ isRequest => exact hrequest isRequest
    | take => exact hrequest (by simp)

/-- A request asks for no more ranges than slots were proposed for. -/
theorem Reachable.length_ranges_le (h : Reachable c Env w) (hlast : ProposedUpTo last w.sent)
    {m : CatchUpRequest} (hm : Said w.sent (.catchUpRequest m)) : m.ranges.length ≤ last := by
  obtain ⟨hpairwise, slot, v, hdecided, hranges⟩ := (h.learner_within m.sender).asked m hm rfl
  obtain ⟨r, hproposed⟩ := h.proposed_of_decided hdecided
  have hle := hlast r slot v hproposed
  have hsorted : (m.ranges.map Prod.fst).Pairwise (· < ·) := by
    rw [List.pairwise_map]
    refine hpairwise.imp_of_mem fun ha _ hlt => ?_
    have hrange := hranges _ ha
    omega
  have hbounds : ∀ first ∈ m.ranges.map Prod.fst, 0 ≤ first ∧ first < last := by
    intro first hfirst
    obtain ⟨range, hrange, rfl⟩ := List.mem_map.mp hfirst
    have hrange := hranges range hrange
    omega
  simpa using length_le_of_sorted hsorted hbounds

/-- An answer lists no more slots than the retention. -/
theorem Reachable.length_decided_le (h : Reachable c Env w) {m : CatchUpResponse}
    (hm : Said w.sent (.catchUpResponse m)) : m.decided.length ≤ c.retention :=
  (h.learner_within m.sender).answered m hm rfl

end ReplicatedLog
