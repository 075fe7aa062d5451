import ReplicatedLog.Proofs.Pacing
import ReplicatedLog.Proofs.ProposerRuns
import ReplicatedLog.Proofs.Retention
import ReplicatedLog.Proofs.RoundTrip
import ReplicatedLog.Proofs.Validity

/-!
# Messages in words

A message can be read back if all its numbers fit in words (`Message.InWords`). The messages of a world are
such messages, as long as the settings are and what is brought in from outside: the values of clients and the
views of the membership (`Event.InWords`).

Every role checks the numbers that it makes up: the counter of a new round, the slot after the last one that
it proposes for. All else in a message is taken from messages that arrived, or lies below a slot that was
proposed for. So a message is looked at in two steps: what its author answers for (`Message.OwnInWords`) holds
step by step, for all roles together (`World.InWords`), and the rest follows from what is known of votes,
deliveries and gaps (`Reachable.inWords`).
-/

namespace ReplicatedLog

open Function

/-- The number of replicas and the retention fit in words. -/
def ReplicaSettings.InWords (c : ReplicaSettings) : Prop :=
  c.replicas < Word.size ∧ c.retention < Word.size

/-- The values and the views of the membership that an event brings in fit in words. The views of learners do
not matter, as a learner tells nobody. -/
def Event.InWords : Event → Prop
  | .acceptor _ (.setEpochs epochs) => epochs.InWords
  | .proposer _ (.setEpochs epochs) => epochs.InWords
  | .proposer _ (.submit value) => value.InWords
  | _ => True

instance : (e : Event) → Decidable e.InWords
  | .acceptor _ (.setEpochs epochs) => inferInstanceAs (Decidable epochs.InWords)
  | .proposer _ (.setEpochs epochs) => inferInstanceAs (Decidable epochs.InWords)
  | .proposer _ (.submit value) => inferInstanceAs (Decidable value.InWords)
  | .acceptor _ (.prepare _) | .acceptor _ (.accept _) | .acceptor _ (.takeOver _)
  | .acceptor _ (.raiseLow _) | .snapshot _ _ | .proposer _ (.trust _) | .proposer _ (.promise _)
  | .proposer _ (.hear _) | .proposer _ (.noteDelivered _ _) | .proposer _ .retry
  | .proposer _ .checkProgress | .handOver _ | .learner _ _ => inferInstanceAs (Decidable True)

theorem EpochVector.inWords_zeros {n : Nat} (hn : n < Word.size) : (EpochVector.zeros n).InWords := by
  refine ⟨by simpa [zeros] using hn, fun epoch hepoch => ?_⟩
  obtain rfl := List.eq_of_mem_replicate hepoch
  decide

/-- What the author of a message answers for fits in words: its round, if it is a leader, the slot that it
proposes for or asks from, and its view of the membership. -/
def Message.OwnInWords : Message → Prop
  | .prepare m => m.round.InWords ∧ m.slot < Word.size
  | .promise m => m.round.InWords ∧ m.epochs.InWords
  | .accept m => m.round.InWords ∧ 0 < m.slot ∧ m.slot < Word.size ∧ m.epochs.InWords
  | .learn m => m.epochs.InWords
  | .catchUpRequest _ => True
  | .catchUpResponse _ => True

/-- A learner answers for nothing but what others told it. -/
theorem Message.ownInWords_of_learner {m : Message} {i : Nat} (h : m.author = (.learner, i)) :
    m.OwnInWords := by
  cases m with
  | catchUpRequest => trivial
  | catchUpResponse => trivial
  | _ => cases h

theorem Message.sender_eq_of_author {m : Message} {r : Role} {i : Nat} (h : m.author = (r, i)) :
    m.sender = i := by
  cases m <;> exact congrArg Prod.snd h

/-! ### Acceptors -/

/-- An acceptor promises rounds that it was asked for, and tells its view of the membership. -/
theorem Acceptor.ownInWords_of_act {a a' : Acceptor} {x : Input} {out : List Outgoing}
    (hepochs : a.epochs.InWords) (hprepare : ∀ m, x = .prepare m → m.round.InWords)
    (hact : a.act x = .ok (a', out)) {m : Message} (hm : Said out m) : m.OwnInWords := by
  by_cases hx : ∀ s, x ≠ .takeOver s
  · cases acts_of_act hx hact with
    | quiet => exact absurd hm not_said_nil
    | promise =>
      obtain rfl := said_singleton.mp hm
      exact ⟨hprepare _ rfl, hepochs⟩
    | vote =>
      obtain rfl := said_singleton.mp hm
      exact hepochs
  · obtain ⟨s, rfl⟩ : ∃ s, x = .takeOver s := by simpa using hx
    cases hact
    exact absurd hm not_said_nil

/-! ### Proposers -/

namespace Proposer

variable {p p' : Proposer} {x : Input} {o : Output} {out : List Outgoing}

/-- What a proposer may tell of itself fits in words. -/
structure InWords (p : Proposer) : Prop where
  /-- Its round. -/
  round : p.round.InWords
  /-- It is not to propose for a slot that is decided. -/
  adu_lt : p.adu < p.nextSlot
  /-- The slot after those that it proposed for. -/
  nextSlot_lt : p.nextSlot < Word.size
  /-- Its view of the membership. -/
  epochs : p.epochs.InWords

/-- The slot after those that are proposed for is checked. -/
theorem nextSlot_lt_of_fill (h : p.fill = .ok (p', out)) (hnext : p.nextSlot < Word.size) :
    p'.nextSlot < Word.size := by
  by_cases hleads : p.isLeader = true ∧ p.phase = .two
  · obtain ⟨-, hlt, rfl, -⟩ := (fill_eq_ok_iff hleads.1 hleads.2).mp h
    exact hlt
  · rcases fill_cases h with ⟨-, rfl, -⟩ | ⟨hlead, htwo, -⟩
    · exact hnext
    · exact absurd ⟨hlead, htwo⟩ hleads

/-- A proposer that is ready is in the same round, and the slot that it goes on with was checked. -/
theorem nextSlot_lt_of_readies {q : Proposer} {taken : Option Value} (h : Readies p x q taken)
    (hnext : p.nextSlot < Word.size) :
    q.nextSlot < Word.size ∧ q.round = p.round ∧ q.epochs = p.epochs := by
  cases h with
  | begins topCounter ownBefore _ _ _ own =>
    obtain ⟨_, hfits, -⟩ := Checked.bind_eq_ok_iff.mp own
    exact ⟨(Word.fit_eq_ok_iff.mp hfits).1, rfl, rfl⟩
  | submits => exact ⟨hnext, rfl, rfl⟩
  | advances adu decided above fits =>
    refine ⟨?_, rfl, rfl⟩
    unfold advanced
    dsimp only
    split
    · exact fits
    · exact hnext

/-- What is proposed is told with the view of the membership that the proposer has. -/
theorem epochs_of_act (hlow : p.window.low = p.adu + 1) (hlt : p.adu < p.nextSlot)
    (hact : p.act x = .ok (p', o)) {m : Accept} (hm : Said o.outbound (.accept m)) :
    m.epochs = p.epochs := by
  cases acts_of_act hlow hact with
  | quiet => exact absurd hm not_said_nil
  | ask _ asks => simp [asks.out_eq, Outgoing.message] at hm
  | gather => exact absurd hm not_said_nil
  | fill readies fills =>
    obtain ⟨slot, value, -, -, -, heq⟩ :=
      said_of_proposals (proposals_of_fill (adu_lt_of_readies hlt readies) fills) hm
    cases heq
    obtain ⟨_, _, _, rfl⟩ := exists_of_fill fills
    cases readies <;> rfl
  | resend =>
    obtain ⟨slot, value, -, -, -, heq⟩ := said_of_proposals (fun _ => of_mem_resent) hm
    cases heq
    rfl

/-- **A proposer says what fits in words**, and goes on doing so. -/
theorem InWords.act (h : p.InWords) (hid : p.id < Word.size) (hlow : p.window.low = p.adu + 1)
    (hview : ∀ epochs, x = .setEpochs epochs → epochs.InWords) (hact : p.act x = .ok (p', o)) :
    p'.InWords ∧ ∀ m, Said o.outbound m → m.OwnInWords := by
  have hadu := adu_lt_of_act hlow h.adu_lt hact
  have hepochs : p'.epochs.InWords := by
    rcases (setUp_of_act hact).2.1 with heq | rfl
    · exact heq ▸ h.epochs
    · exact hview _ rfl
  have hround : p'.round.InWords ∧ p'.nextSlot < Word.size := by
    cases acts_of_act hlow hact with
    | quiet same => exact ⟨same.round_eq ▸ h.round, same.nextSlot_eq ▸ h.nextSlot_lt⟩
    | ask _ asks =>
      exact ⟨⟨asks.counter_lt, asks.owner_eq.trans_lt hid⟩, asks.nextSlot_eq ▸ h.nextSlot_lt⟩
    | gather => exact ⟨h.round, h.nextSlot_lt⟩
    | fill readies fills =>
      obtain ⟨hnext, heq, -⟩ := nextSlot_lt_of_readies readies h.nextSlot_lt
      refine ⟨?_, nextSlot_lt_of_fill fills hnext⟩
      obtain ⟨_, _, _, rfl⟩ := exists_of_fill fills
      exact heq ▸ h.round
    | resend => exact ⟨h.round, h.nextSlot_lt⟩
  refine ⟨⟨hround.1, hadu, hround.2, hepochs⟩, fun m hm => ?_⟩
  cases m with
  | accept m =>
    obtain ⟨-, heq, habove, hbelow, -⟩ := accept_of_act hlow h.adu_lt hact hm
    exact ⟨heq ▸ hround.1, Nat.zero_lt_of_lt habove, hbelow.trans hround.2,
      epochs_of_act hlow h.adu_lt hact hm ▸ h.epochs⟩
  | prepare m =>
    have hslot := ((adu_of_act hlow hact).2 m hm).2
    rcases prepares_of_act hlow hact with ⟨hnone, -⟩ | ⟨m', hone, heq, -⟩
    · rw [← mem_preparesIn, hnone] at hm
      cases hm
    · rw [← mem_preparesIn, hone] at hm
      obtain rfl := List.mem_singleton.mp hm
      exact ⟨heq ▸ hround.1, hslot ▸ h.adu_lt.trans h.nextSlot_lt⟩
  | _ =>
    obtain ⟨o', ho', heq⟩ := hm
    have hauthor := (author_of_act hlow hact).2.2 o' ho'
    rw [Outgoing.author, heq] at hauthor
    cases hauthor

/-- A step takes the value that was submitted, if any. -/
theorem submit_of_taken (hlow : p.window.low = p.adu + 1) (hact : p.act x = .ok (p', o)) {v : Value}
    (htaken : o.taken = some v) : x = .submit v := by
  cases acts_of_act hlow hact with
  | fill readies =>
    cases readies with
    | submits value => rw [Option.some.inj htaken]
    | _ => cases htaken
  | _ => cases htaken

end Proposer

/-! ### Worlds -/

namespace World

/-- What the roles of a world tell of themselves fits in words. -/
structure InWords (w : World) : Prop where
  /-- The views of the membership that acceptors have. -/
  acceptors : ∀ i, (w.acceptors i).epochs.InWords
  /-- What the proposers have. -/
  proposers : ∀ i, (w.proposers i).InWords
  /-- The values that clients submitted. -/
  submitted : ∀ i, ∀ v ∈ w.submitted i, v.InWords
  /-- What was said. -/
  said : ∀ m, Said w.sent m → m.sender < Word.size ∧ m.OwnInWords

variable {w : World} {i : Nat} {out : List Outgoing}

theorem inWords_start {c : ReplicaSettings} (hc : c.InWords) : (World.start c).InWords where
  acceptors _ := EpochVector.inWords_zeros hc.1
  proposers _ := ⟨(by decide : Round.bottom.InWords), Nat.zero_lt_one,
    (by decide : 1 < Word.size), EpochVector.inWords_zeros hc.1⟩
  submitted i v hv := (List.not_mem_nil hv).elim
  said m hm := absurd hm not_said_nil

/-- One role says something more. -/
theorem InWords.said_append (h : w.InWords) {r : Role} (hauthor : ∀ o ∈ out, o.author = (r, i))
    (hi : i < Word.size) (hout : ∀ m, Said out m → m.OwnInWords) (m : Message)
    (hm : Said (w.sent ++ out) m) : m.sender < Word.size ∧ m.OwnInWords := by
  rcases ReplicatedLog.said_append.mp hm with hm | hm
  · exact h.said m hm
  · obtain ⟨o, ho, rfl⟩ := id hm
    exact ⟨(Message.sender_eq_of_author (hauthor o ho)).trans_lt hi, hout _ hm⟩

/-- A proposer takes a step. -/
theorem InWords.propose (h : w.InWords) {p p' : Proposer} {x : Proposer.Input} {o : Proposer.Output}
    (hp : p.InWords) (hid : p.id = i) (hi : i < Word.size) (hlow : p.window.low = p.adu + 1)
    (hx : (Event.proposer i x).InWords) (hact : p.act x = .ok (p', o)) :
    InWords { w with
      proposers := update w.proposers i p'
      sent := w.sent ++ o.outbound
      submitted := update w.submitted i (w.submitted i ++ o.taken.toList) } := by
  subst hid
  obtain ⟨hp', hout⟩ := hp.act hi hlow (by rintro _ rfl; exact hx) hact
  constructor
  · exact h.acceptors
  · exact (forall_update_iff w.proposers fun _ p => p.InWords).mpr ⟨hp', fun j _ => h.proposers j⟩
  · refine (forall_update_iff w.submitted fun _ vs => ∀ v ∈ vs, v.InWords).mpr
      ⟨fun v hv => ?_, fun j _ => h.submitted j⟩
    rcases List.mem_append.mp hv with hv | hv
    · exact h.submitted p.id v hv
    · obtain rfl := Proposer.submit_of_taken hlow hact (Option.mem_toList.mp hv)
      exact hx
  · exact h.said_append (Proposer.author_of_act hlow hact).2.2 hi hout

end World

namespace Reachable

variable {c : ReplicaSettings} {Env : World → Event → Prop} {w : World}

/-- **What the roles of a world tell of themselves fits in words**, if what the world is set up with
does, and what is brought in. -/
theorem world_inWords (h : Reachable c Env w) (hc : c.InWords) (henv : ∀ w e, Env w e → e.InWords) :
    w.InWords := by
  induction h with
  | start => exact World.inWords_start hc
  | @step w w' e hw hEnv hallowed hstep ih =>
    have he := henv w e hEnv
    cases World.steps_of_step hstep with
    | @acceptor i x a out act =>
      have hi : i < Word.size := (World.lt_of_allowed hallowed).trans hc.1
      have hauthor := (Acceptor.author_of_act act).2
      rw [(hw.ids i).1] at hauthor
      have hprepare : ∀ m, x = .prepare m → m.round.InWords := by
        rintro m rfl
        exact (ih.said _ (World.said_of_arrives hallowed.2)).2.1
      refine ⟨?_, ih.proposers, ih.submitted, ih.said_append hauthor hi fun m hm =>
        Acceptor.ownInWords_of_act (ih.acceptors i) hprepare act hm⟩
      refine (forall_update_iff w.acceptors fun _ a => a.epochs.InWords).mpr
        ⟨?_, fun j _ => ih.acceptors j⟩
      rcases (Acceptor.view_of_act act).2 with heq | rfl
      · exact heq ▸ ih.acceptors i
      · exact he
    | snapshot => exact ⟨ih.acceptors, ih.proposers, ih.submitted, ih.said⟩
    | @proposer i x p out act =>
      exact ih.propose (ih.proposers i) (hw.ids i).2.2.1
        ((World.lt_of_allowed hallowed).trans hc.1) (hw.ids i).2.2.2 he act
    | nothing => exact ih
    | @handOver i note rest p out waiting_eq act =>
      have hi : i < Word.size := Nat.lt_trans hallowed hc.1
      have hheard : ((w.proposers i).hear note.round).InWords :=
        ⟨(ih.proposers i).round, (ih.proposers i).adu_lt, (ih.proposers i).nextSlot_lt,
          (ih.proposers i).epochs⟩
      obtain ⟨hacceptors, hproposers, hsubmitted, hsaid⟩ :=
        ih.propose hheard (hw.ids i).2.2.1 hi (hw.ids i).2.2.2
          (x := .noteDelivered note.adu note.decided) trivial act
      rw [Option.toList_none, List.append_nil, update_eq_self] at hsubmitted
      exact ⟨hacceptors, hproposers, hsubmitted, hsaid⟩
    | @learner i x l d act =>
      have hi : i < Word.size := (World.lt_of_allowed hallowed).trans hc.1
      have hauthor := (Learner.author_of_act act).2
      rw [(hw.ids i).2.1] at hauthor
      refine ⟨ih.acceptors, ih.proposers, ih.submitted, ih.said_append hauthor hi ?_⟩
      rintro m ⟨o, ho, rfl⟩
      exact Message.ownInWords_of_learner (hauthor o ho)

/-- What was proposed fits in words. -/
theorem inWords_of_proposed (h : Reachable c Env w) (hc : c.InWords)
    (henv : ∀ w e, Env w e → e.InWords) {r : Round} {slot : Nat} {v : Value}
    (hproposed : Proposed w.sent r slot v) :
    r.InWords ∧ (0 < slot ∧ slot < Word.size) ∧ v.InWords := by
  have hwords := h.world_inWords hc henv
  have hvalue : v.InWords := by
    rcases h.sourced.proposed r slot v hproposed with rfl | ⟨j, hj⟩
    · exact Nat.two_pow_pos 64
    · exact hwords.submitted j v hj
  obtain ⟨sender, epochs, hsaid⟩ := hproposed
  obtain ⟨hround, hpos, hslot, -⟩ := (hwords.said _ hsaid).2
  exact ⟨hround, ⟨hpos, hslot⟩, hvalue⟩

/-- **Every message fits in words**, if the settings do, and what clients and the membership bring in. -/
theorem inWords (h : Reachable c Env w) (hc : c.InWords) (henv : ∀ w e, Env w e → e.InWords)
    {m : Message} (hm : Said w.sent m) : m.InWords := by
  have hproposed : ∀ {r slot v}, Proposed w.sent r slot v →
      r.InWords ∧ (0 < slot ∧ slot < Word.size) ∧ v.InWords := h.inWords_of_proposed hc henv
  have hlast : ProposedUpTo (Word.size - 1) w.sent := fun r slot v hp =>
    Nat.le_pred_of_lt (hproposed hp).2.1.2
  obtain ⟨hsender, hown⟩ := (h.world_inWords hc henv).said m hm
  cases m with
  | prepare m => exact ⟨hsender, hown⟩
  | promise m =>
    have hreports : ∀ rep ∈ m.reports, _ := fun rep hrep =>
      hproposed (h.honest.reported m hm rep hrep).1
    have hlength : m.reports.length ≤ Word.size - 1 := by
      have hbounds : ∀ slot ∈ m.reports.map Report.slot, 1 ≤ slot ∧ slot < Word.size := by
        intro slot hslot
        obtain ⟨rep, hrep, rfl⟩ := List.mem_map.mp hslot
        exact (hreports rep hrep).2.1
      simpa using length_le_of_sorted (h.sorted_reports hm) hbounds
    refine ⟨hsender, hown.1, Nat.lt_of_le_pred (Nat.two_pow_pos 64) hlength, fun rep hrep => ?_,
      hown.2⟩
    obtain ⟨hround, hslot, hvalue⟩ := hreports rep hrep
    exact ⟨hslot.2, hround, hvalue⟩
  | accept m =>
    obtain ⟨hround, hslot, hvalue⟩ := hproposed ⟨m.sender, m.epochs, hm⟩
    exact ⟨hsender, hround, hslot.2, hvalue, hown.2.2.2⟩
  | learn m =>
    obtain ⟨hround, hslot, hvalue⟩ := hproposed (h.honest.cast m hm)
    exact ⟨hsender, hslot.2, hround, hvalue, hown⟩
  | catchUpRequest m =>
    obtain ⟨-, last, v, hdecided, hranges⟩ := (h.learner_within m.sender).asked m hm rfl
    obtain ⟨r, hlastProposed⟩ := h.proposed_of_decided hdecided
    have hslot := (hproposed hlastProposed).2.1.2
    refine ⟨hsender, Nat.lt_of_le_pred (Nat.two_pow_pos 64) (h.length_ranges_le hlast hm),
      fun range hrange => ?_⟩
    have hrange := hranges range hrange
    omega
  | catchUpResponse m =>
    refine ⟨hsender, (h.length_decided_le hm).trans_lt hc.2, ?_⟩
    rintro ⟨slot, v⟩ hd
    obtain ⟨r, hp⟩ := h.proposed_of_decided
      ((h.learner_recorded m.sender).answered m hm rfl slot v hd)
    exact ⟨(hproposed hp).2.1.2, (hproposed hp).2.2⟩

end Reachable

end ReplicatedLog
