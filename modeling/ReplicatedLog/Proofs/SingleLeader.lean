import ReplicatedLog.Proofs.Deliveries
import ReplicatedLog.Proofs.Ordering
import ReplicatedLog.Proofs.Votes

/-!
# One leader

If only one replica is ever told to lead, the log is the sequence of the values that were submitted
to it (`Reachable.log_of_one_leader`). It may lose the trust of its replica and gain it again at any
time, and start over with higher rounds; acceptors may give up votes and take over those of others;
messages may be lost, doubled and overtaken.

The other proposers say nothing. So all that anybody votes for, reports or delivers are values of the
leader, for the slots that it gave them, and it keeps them in order (`World.Fifo`).
-/

namespace ReplicatedLog

open Function

/-- No proposer but that of `leader` is told that its own replica is to lead. -/
def Event.LedBy (leader : Nat) : Event → Prop
  | .proposer i (.trust j) => i = j → i = leader
  | _ => True

instance (leader : Nat) (e : Event) : Decidable (e.LedBy leader) := by
  unfold Event.LedBy
  split <;> infer_instance

/-- Only `leader` proposes, and what it proposed are the values submitted to it, in order. -/
structure World.Fifo (leader : Nat) (w : World) : Prop where
  /-- The others do not lead. -/
  idle : ∀ i, i ≠ leader → (w.proposers i).phase = .idle
  /-- The values have their slots in order, and were proposed for these only. -/
  inOrder : ∃ m, (w.proposers leader).InOrder (w.submitted leader) m ∧
    ∀ r t v, Proposed w.sent r t v → t ≤ m ∧ IsNth (w.submitted leader) t v

variable {c : ReplicaSettings} {Env : World → Event → Prop} {w : World} {leader : Nat}

namespace World

theorem fifo_start (c : ReplicaSettings) (leader : Nat) : (World.start c).Fifo leader where
  idle i _ := rfl
  inOrder := by
    refine ⟨0, ⟨rfl, Nat.le_refl 0, Nat.one_pos, Nat.le_refl 1, Nat.le_refl 0, rfl,
      fun t ht => ?_, by simp [Proposer.reports, start, Replica.ofSettings, Replica.start]⟩,
      fun r t v hv => ?_⟩
    · have hpos : 1 ≤ t := ht
      rw [if_neg (by omega)]
      show (({} : Window Proposal).get? t).bind Proposal.value = none
      rw [Window.get?_empty]
      rfl
    · obtain ⟨_, _, hsaid⟩ := hv
      exact absurd hsaid not_said_nil

/-- What is no proposal does not disturb the order. -/
theorem Fifo.append (h : w.Fifo leader) {out : List Outgoing}
    (hout : ∀ m, ¬ Said out (.accept m)) : ∃ m,
      (w.proposers leader).InOrder (w.submitted leader) m ∧
        ∀ r t v, Proposed (w.sent ++ out) r t v → t ≤ m ∧ IsNth (w.submitted leader) t v := by
  obtain ⟨m, hm, hproposed⟩ := h.inOrder
  refine ⟨m, hm, fun r t v ⟨sender, epochs, hsaid⟩ => hproposed r t v ⟨sender, epochs, ?_⟩⟩
  exact (said_append.mp hsaid).resolve_right (hout _)

/-- What is reported to the leader, and what it hears of deliveries, are its own values in their slots. -/
theorem Fifo.exists_inOrder (hw : Reachable c Env w) (h : w.Fifo leader) : ∃ m,
    (w.proposers leader).InOrder (w.submitted leader) m ∧
      (∀ r t v, Proposed w.sent r t v → t ≤ m ∧ IsNth (w.submitted leader) t v) ∧
      (∀ msg, Said w.sent (.promise msg) →
        ∀ rep ∈ msg.reports, rep.slot ≤ m ∧ IsNth (w.submitted leader) rep.slot rep.value) ∧
      ∀ (adu : Nat) (decided : List (Nat × Value)),
        adu ≤ (w.logs leader).length → (∀ d ∈ decided, d ∈ w.logs leader) →
        adu ≤ m ∧ ∀ d ∈ decided, IsNth (w.submitted leader) d.1 d.2 := by
  obtain ⟨m, hm, hproposed⟩ := h.inOrder
  have hdelivered : ∀ d ∈ w.logs leader, d.1 ≤ m ∧ IsNth (w.submitted leader) d.1 d.2 := by
    rintro ⟨slot, v⟩ hd
    obtain ⟨r, hr⟩ := hw.proposed_of_mem_logs hd
    exact hproposed r slot v hr
  refine ⟨m, hm, hproposed, fun msg hmsg rep hrep => ?_, fun adu decided hadu hdecided => ?_⟩
  · exact hproposed _ _ _ (hw.honest.reported msg hmsg rep hrep).1
  · refine ⟨?_, fun d hd => (hdelivered d (hdecided d hd)).2⟩
    -- the last slot that it hears of was delivered, so it has a value
    rcases Nat.eq_zero_or_pos adu with rfl | hpos
    · exact Nat.zero_le m
    · have hslot : adu ∈ (w.logs leader).map Prod.fst := by
        rw [(hw.learner_recorded leader).slots, List.mem_range'_1]
        omega
      obtain ⟨d, hd, rfl⟩ := List.mem_map.mp hslot
      exact (hdelivered d hd).1

/-- What the leader does keeps the order, if what it hears of was said and delivered. -/
theorem Fifo.lead (hw : Reachable c Env w) (h : w.Fifo leader) {p p' : Proposer}
    {x : Proposer.Input} {out : Proposer.Output}
    (hp : ∀ S m, (w.proposers leader).InOrder S m → p.InOrder S m)
    (hmsg : ∀ msg, x = .promise msg → Said w.sent (.promise msg))
    (hnote : ∀ adu decided, x = .noteDelivered adu decided →
      adu ≤ (w.logs leader).length ∧ ∀ d ∈ decided, d ∈ w.logs leader)
    (hact : p.act x = .ok (p', out)) :
    ∃ m, p'.InOrder (w.submitted leader ++ out.taken.toList) m ∧
      ∀ r t v, Proposed (w.sent ++ out.outbound) r t v →
        t ≤ m ∧ IsNth (w.submitted leader ++ out.taken.toList) t v := by
  obtain ⟨m, hm, hproposed, hreported, hnoted⟩ := h.exists_inOrder hw
  obtain ⟨m', hle, hm', hsent⟩ := (hp _ _ hm).act (fun msg hx => hreported msg (hmsg msg hx))
    (fun adu decided hx => hnoted adu decided (hnote adu decided hx).1 (hnote adu decided hx).2) hact
  refine ⟨m', hm', fun r t v ⟨sender, epochs, hsaid⟩ => ?_⟩
  rcases said_append.mp hsaid with hsaid | hsaid
  · obtain ⟨hlt, hnth⟩ := hproposed r t v ⟨sender, epochs, hsaid⟩
    exact ⟨hlt.trans hle, hnth.append _⟩
  · exact hsent r t v ⟨sender, epochs, hsaid⟩

/-- The step of a proposer, when it has heard of a round or not, keeps the order. Only the leader's is
more than idle. -/
theorem Fifo.speak (hw : Reachable c Env w) (h : w.Fifo leader) {i : Nat} {p p' : Proposer}
    {x : Proposer.Input} {out : Proposer.Output}
    (hp : p = w.proposers i ∨ ∃ round, p = (w.proposers i).hear round)
    (hself : x = .trust i → i = leader)
    (hmsg : ∀ msg, x = .promise msg → Said w.sent (.promise msg))
    (hnote : ∀ adu decided, x = .noteDelivered adu decided →
      adu ≤ (w.logs i).length ∧ ∀ d ∈ decided, d ∈ w.logs i)
    (hact : p.act x = .ok (p', out)) :
    Fifo leader { w with
      proposers := update w.proposers i p'
      sent := w.sent ++ out.outbound
      submitted := update w.submitted i (w.submitted i ++ out.taken.toList) } := by
  by_cases hi : i = leader
  · subst hi
    refine ⟨fun j hj => ?_, ?_⟩
    · simp only [update_of_ne hj]
      exact h.idle j hj
    · simp only [update_self]
      refine h.lead hw (fun S m hm => ?_) hmsg hnote hact
      rcases hp with rfl | ⟨round, rfl⟩
      · exact hm
      · exact hm.congr rfl rfl rfl rfl hm.reports
  · obtain ⟨hid, hlow, hphase⟩ :
        p.id = i ∧ p.window.low = p.adu + 1 ∧ p.phase = .idle := by
      rcases hp with rfl | ⟨round, rfl⟩ <;>
        exact ⟨(hw.ids i).2.2.1, (hw.ids i).2.2.2, h.idle i hi⟩
    obtain ⟨hidle, hnone⟩ := Proposer.idle_of_act hlow hphase
      (fun hx => hi (hself (hid ▸ hx))) hact
    refine ⟨?_, ?_⟩
    · refine (forall_update_iff w.proposers fun j p => j ≠ leader → p.phase = .idle).mpr ?_
      exact ⟨fun _ => hidle, fun j _ => h.idle j⟩
    · simp only [hnone, update_of_ne (Ne.symm hi)]
      exact h.append fun m => not_said_nil

end World

/-- **One leader keeps the order** in every run in which no other is told to lead. -/
theorem Reachable.fifo (h : Reachable c (fun _ e => e.LedBy leader) w) : w.Fifo leader := by
  induction h with
  | start => exact World.fifo_start c leader
  | @step w w' e hw hled hallowed hstep ih =>
    cases World.steps_of_step hstep with
    | @acceptor i x a out act =>
      exact ⟨ih.idle, ih.append
        (World.not_accept_of_author (by simp) (Acceptor.author_of_act act).2)⟩
    | snapshot => exact ⟨ih.idle, ih.inOrder⟩
    | @proposer i x p out act =>
      refine ih.speak hw (Or.inl rfl) ?_ ?_ ?_ act
      · rintro rfl
        exact hled rfl
      · rintro msg rfl
        exact World.said_of_arrives hallowed.2
      · rintro adu decided rfl
        exact hallowed.elim
    | nothing => exact ih
    | @handOver i note rest p out waiting_eq act =>
      have htold := (hw.told i).waiting note (by rw [waiting_eq]; exact List.mem_cons_self)
      obtain ⟨hidle, hinOrder⟩ := ih.speak (p := (w.proposers i).hear note.round) hw
        (Or.inr ⟨note.round, rfl⟩) (by simp) (by simp) (by rintro adu decided ⟨⟩; exact htold) act
      rw [Option.toList_none, List.append_nil, update_eq_self] at hinOrder
      exact ⟨hidle, hinOrder⟩
    | @learner i x l d act =>
      exact ⟨ih.idle, ih.append
        (World.not_accept_of_author (by simp) (Learner.author_of_act act).2)⟩

/-- What is delivered has its place among the values that were submitted to the leader. -/
theorem Reachable.isNth_of_mem_logs (h : Reachable c (fun _ e => e.LedBy leader) w) {i slot : Nat}
    {v : Value} (hmem : (slot, v) ∈ w.logs i) : IsNth (w.submitted leader) slot v := by
  obtain ⟨m, -, hproposed⟩ := h.fifo.inOrder
  obtain ⟨r, hr⟩ := h.proposed_of_mem_logs hmem
  exact (hproposed r slot v hr).2

/-- The values delivered are the first that were submitted to the leader. -/
theorem Reachable.logs_prefix (h : Reachable c (fun _ e => e.LedBy leader) w) (i : Nat) :
    (w.logs i).map Prod.snd <+: w.submitted leader := by
  refine List.prefix_iff_getElem?.mpr fun k hk => ?_
  rw [List.length_map] at hk
  -- the entry at position `k` is for slot `k + 1`
  have hslot : (w.logs i)[k].1 = k + 1 := by
    have hfst : ((w.logs i).map Prod.fst)[k]? = some (1 + 1 * k) := by
      rw [(h.learner_recorded i).slots, List.getElem?_range' hk]
    rw [List.getElem?_map, List.getElem?_eq_getElem hk, Option.map_some] at hfst
    have := Option.some.inj hfst
    omega
  have hvalue : IsNth (w.submitted leader) (w.logs i)[k].1 (w.logs i)[k].2 :=
    h.isNth_of_mem_logs (List.getElem_mem hk)
  rw [hslot] at hvalue
  rw [List.getElem_map]
  exact hvalue.2

/-- **The log of one leader**: what any learner delivers, slot by slot from the first on, are the
values that were submitted to the leader, in this order. The value of a slot is the one at its place
in the sequence; none is lost, doubled or moved, and no no-op comes in between. -/
theorem Reachable.log_of_one_leader (h : Reachable c (fun _ e => e.LedBy leader) w) (i : Nat) :
    (w.logs i).map Prod.fst = List.range' 1 (w.logs i).length ∧
      (w.logs i).map Prod.snd <+: w.submitted leader ∧
        ∀ slot v, (slot, v) ∈ w.logs i →
          0 < slot ∧ (w.submitted leader)[slot - 1]? = some v :=
  ⟨(h.learner_recorded i).slots, h.logs_prefix i, fun _ _ hmem => h.isNth_of_mem_logs hmem⟩

/-- A leader loses the trust of its replica and gains it again; it starts over, and what it proposed
before keeps its slot. -/
theorem log_of_one_leader_of_second_round : ∃ w, Reachable {} (fun _ e => e.LedBy 0) w ∧
    w.logs 1 = [(1, .appBatch [65]), (2, .appBatch [66])] ∧
      (w.logs 1).map Prod.snd <+: w.submitted 0 := by
  let r : Round := ⟨1, 0⟩
  let r' : Round := ⟨2, 0⟩
  let e : EpochVector := .zeros 3
  let v := Value.appBatch [65]
  let v' := Value.appBatch [66]
  obtain ⟨w, hw, hlog⟩ := World.exists_reachable {} (fun _ e => e.LedBy 0)
    [.proposer 0 (.trust 0), .proposer 0 (.submit v), .acceptor 0 (.prepare ⟨0, r, 0⟩),
      .acceptor 1 (.prepare ⟨0, r, 0⟩), .proposer 0 (.promise ⟨0, r, [], e⟩),
      .proposer 0 (.promise ⟨1, r, [], e⟩), .acceptor 0 (.accept ⟨0, r, 1, v, e⟩),
      .acceptor 1 (.accept ⟨0, r, 1, v, e⟩), .proposer 0 (.trust 1), .proposer 0 (.trust 0),
      .acceptor 0 (.prepare ⟨0, r', 0⟩), .acceptor 1 (.prepare ⟨0, r', 0⟩),
      .proposer 0 (.promise ⟨0, r', [⟨1, r, v⟩], e⟩),
      .proposer 0 (.promise ⟨1, r', [⟨1, r, v⟩], e⟩), .proposer 0 (.submit v'),
      .acceptor 0 (.accept ⟨0, r', 1, v, e⟩), .acceptor 1 (.accept ⟨0, r', 1, v, e⟩),
      .acceptor 0 (.accept ⟨0, r', 2, v', e⟩), .acceptor 1 (.accept ⟨0, r', 2, v', e⟩),
      .learner 1 (.learn ⟨0, 1, r', v, e⟩), .learner 1 (.learn ⟨1, 1, r', v, e⟩),
      .learner 1 (.learn ⟨0, 2, r', v', e⟩), .learner 1 (.learn ⟨1, 2, r', v', e⟩)]
    (fun w => w.logs 1 = [(1, v), (2, v')]) (by decide +kernel)
  exact ⟨w, hw, hlog, (hw.log_of_one_leader 1).2.1⟩

end ReplicatedLog
