import ReplicatedLog.Proofs.Owning
import ReplicatedLog.Proofs.World

/-!
# Conservation of submitted values

A proposer neither loses nor doubles the values that clients submit to it, whatever promises it gets,
whoever is trusted to lead, and however often it starts over (`Ledger.Run.conserved`). Each value
that it took is in its queue, or has a slot where it is its own, or was settled: delivered in the slot
in which it was its own.

For this it matters that the proposer hears of deliveries from one learner, of all of them and in the
order in which they happen (`HandOver.Follow`). The rest is the learner's affair: it may get any
messages.
-/

namespace ReplicatedLog

/-- The hand-overs continue each other without a gap: the first that is told of is that after `adu`,
and `last` is the slot that the last one tells of. -/
def HandOver.Follow : Nat → List HandOver → Nat → Prop
  | adu, [], last => adu = last
  | adu, h :: rest, last => adu < h.adu ∧
      h.decided.map Prod.fst = List.range' (adu + 1) (h.adu - adu) ∧ Follow h.adu rest last

namespace HandOver

variable {adu mid last : Nat} {hs hs' : List HandOver}

theorem Follow.append (h : Follow adu hs mid) (h' : Follow mid hs' last) :
    Follow adu (hs ++ hs') last := by
  induction hs generalizing adu with
  | nil => exact (show adu = mid from h) ▸ h'
  | cons first rest ih => exact ⟨h.1, h.2.1, ih h.2.2⟩

/-- What a learner tells the proposer of its replica continues what it told before. -/
theorem follow_handOvers {l l' : Learner} {x : Learner.Input} {d : Delivery} (hnext : 1 ≤ l.next)
    (h : l.act x = .ok (l', d)) : Follow l.adu (World.handOvers l' d) l'.adu := by
  obtain ⟨hnext', hslots⟩ := Learner.next_of_act h
  unfold World.handOvers Learner.adu
  split
  · rename_i hempty
    rw [List.isEmpty_iff_length_eq_zero] at hempty
    show l.next - 1 = l'.next - 1
    omega
  · rename_i hempty
    rw [List.isEmpty_iff_length_eq_zero] at hempty
    refine ⟨by dsimp only; omega, ?_, rfl⟩
    have hstart : l.next - 1 + 1 = l.next := by omega
    have hcount : l'.next - 1 - (l.next - 1) = d.delivered.length := by omega
    rw [hslots, hstart, hcount]

end HandOver

/-- A proposer and the learner that it hears from, with an account of the values that clients
submitted. -/
structure Ledger where
  /-- The proposer. -/
  proposer : Proposer
  /-- The learner. -/
  learner : Learner
  /-- What the learner told the proposer that it has not heard yet. -/
  waiting : List HandOver := []
  /-- The values that the proposer took from clients. -/
  submitted : List Value := []
  /-- The values that were delivered in the slots in which they were the proposer's own. -/
  settled : List Value := []

namespace Ledger

/-- Something that happens to the proposer or to the learner. -/
inductive Event where
  /-- Something happens to the proposer. -/
  | propose (x : Proposer.Input)
  /-- Something happens to the learner. -/
  | learn (x : Learner.Input)
  /-- The proposer hears the next thing that the learner told it. -/
  | hear
  deriving DecidableEq, Repr

/-- The proposer hears of deliveries from the learner only. -/
def Event.Allowed : Event → Prop
  | .propose (.noteDelivered _ _) => False
  | _ => True

instance (e : Event) : Decidable e.Allowed := by
  unfold Event.Allowed
  split <;> infer_instance

/-- A fresh proposer and a fresh learner, set up in any way. -/
def start (s s' : RoleSettings) (i i' : Nat) (epochs epochs' : EpochVector) : Ledger where
  proposer := (Replica.start s i epochs).proposer
  learner := (Replica.start s' i' epochs').learner

/-- What an event does. -/
def step (l : Ledger) : Event → Checked Ledger
  | .propose x => do
    let (p, out) ← l.proposer.act x
    return { l with proposer := p, submitted := l.submitted ++ out.taken.toList }
  | .learn x => do
    let (learner, d) ← l.learner.act x
    return { l with learner, waiting := l.waiting ++ World.handOvers learner d }
  | .hear =>
    match l.waiting with
    | [] => .ok l
    | h :: rest => do
      let (p, _) ← l.proposer.noteDelivered h.adu h.decided
      return { l with
        proposer := p
        waiting := rest
        settled := l.settled ++ l.proposer.settledBy h.decided }

/-- The ledgers that runs lead to. -/
inductive Run : Ledger → Prop
  /-- Nothing has happened. -/
  | start (s s' : RoleSettings) (i i' : Nat) (epochs epochs' : EpochVector) :
      Run (Ledger.start s s' i i' epochs epochs')
  /-- One more event. -/
  | step {l l' : Ledger} {e : Event} : Run l → e.Allowed → l.step e = .ok l' → Run l'

/-- What every run keeps. -/
structure Balanced (l : Ledger) : Prop where
  /-- The proposer's window begins after the decided slots. -/
  low_eq : l.proposer.window.low = l.proposer.adu + 1
  /-- It proposes for slots that are not decided. -/
  adu_lt : l.proposer.adu < l.proposer.nextSlot
  /-- The learner has a slot to deliver next. -/
  next_pos : 1 ≤ l.learner.next
  /-- What the proposer is to hear leads from where it is to where the learner is. -/
  follow : HandOver.Follow l.proposer.adu l.waiting l.learner.adu
  /-- No value is lost or doubled. -/
  submitted_eq : (l.submitted : Multiset Value) = l.proposer.stock + l.settled

variable {l l' : Ledger}

theorem balanced_start (s s' : RoleSettings) (i i' : Nat) (epochs epochs' : EpochVector) :
    Balanced (start s s' i i' epochs epochs') :=
  ⟨rfl, Nat.one_pos, Nat.le_refl 1, rfl, rfl⟩

/-- What happens to the proposer, but for hearing of deliveries, keeps the balance. -/
theorem Balanced.propose (h : Balanced l) {x : Proposer.Input} {p : Proposer}
    {out : Proposer.Output} (hx : ∀ adu decided, x ≠ .noteDelivered adu decided)
    (hact : l.proposer.act x = .ok (p, out)) :
    Balanced { l with proposer := p, submitted := l.submitted ++ out.taken.toList } where
  low_eq := (Proposer.author_of_act h.low_eq hact).2.1
  adu_lt := Proposer.adu_lt_of_act h.low_eq h.adu_lt hact
  next_pos := h.next_pos
  follow := by
    have hadu : p.adu = l.proposer.adu :=
      (Proposer.adu_of_act h.low_eq hact).1.resolve_right fun ⟨decided, heq⟩ => hx _ _ heq
    show HandOver.Follow p.adu _ _
    rw [hadu]
    exact h.follow
  submitted_eq := by
    rw [Proposer.stock_of_act h.low_eq h.adu_lt hx hact, ← Multiset.coe_add, h.submitted_eq]
    exact add_right_comm _ _ _

/-- So does what happens to the learner. -/
theorem Balanced.learn (h : Balanced l) {x : Learner.Input} {learner : Learner} {d : Delivery}
    (hact : l.learner.act x = .ok (learner, d)) :
    Balanced { l with learner, waiting := l.waiting ++ World.handOvers learner d } where
  low_eq := h.low_eq
  adu_lt := h.adu_lt
  next_pos := h.next_pos.trans ((Learner.next_of_act hact).1 ▸ Nat.le_add_right _ _)
  follow := h.follow.append (HandOver.follow_handOvers h.next_pos hact)
  submitted_eq := h.submitted_eq

/-- So does hearing what the learner told next. -/
theorem Balanced.hear (h : Balanced l) {note : HandOver} {rest : List HandOver} {p : Proposer}
    {out : List Outgoing} (hwaiting : l.waiting = note :: rest)
    (hnote : l.proposer.noteDelivered note.adu note.decided = .ok (p, out)) :
    Balanced { l with
      proposer := p
      waiting := rest
      settled := l.settled ++ l.proposer.settledBy note.decided } := by
  have hact : l.proposer.act (.noteDelivered note.adu note.decided) = .ok (p, { outbound := out }) :=
    Checked.bind_eq_ok_iff.mpr ⟨(p, out), hnote, rfl⟩
  have hfollow := h.follow
  rw [hwaiting] at hfollow
  obtain ⟨habove, hslots, hrest⟩ := hfollow
  refine ⟨(Proposer.author_of_act h.low_eq hact).2.1,
    Proposer.adu_lt_of_act h.low_eq h.adu_lt hact, h.next_pos, ?_, ?_⟩
  · have hadu : p.adu = note.adu := by
      rcases Proposer.noteDelivered_cases hnote with ⟨hle, -⟩ | ⟨-, -, hfill⟩
      · omega
      · exact (Proposer.adu_of_fill hfill).1
    show HandOver.Follow p.adu rest _
    rw [hadu]
    exact hrest
  · show (l.submitted : Multiset Value) = p.stock + _
    rw [h.submitted_eq, ← Proposer.stock_of_noteDelivered habove hslots hnote, ← Multiset.coe_add]
    abel

/-- **The balance is kept** in every run. -/
theorem Run.balanced (h : Run l) : Balanced l := by
  induction h with
  | start => exact balanced_start _ _ _ _ _ _
  | @step l l' e _ hallowed hstep ih =>
    cases e with
    | propose x =>
      obtain ⟨⟨p, out⟩, hact, hret⟩ := Checked.bind_eq_ok_iff.mp hstep
      obtain rfl := Except.ok.inj hret
      refine ih.propose ?_ hact
      rintro adu decided rfl
      exact hallowed
    | learn x =>
      obtain ⟨⟨learner, d⟩, hact, hret⟩ := Checked.bind_eq_ok_iff.mp hstep
      obtain rfl := Except.ok.inj hret
      exact ih.learn hact
    | hear =>
      unfold Ledger.step at hstep
      dsimp only at hstep
      split at hstep
      · obtain rfl := Except.ok.inj hstep
        exact ih
      · rename_i note rest hwaiting
        obtain ⟨⟨p, out⟩, hnote, hret⟩ := Checked.bind_eq_ok_iff.mp hstep
        obtain rfl := Except.ok.inj hret
        exact ih.hear hwaiting hnote

/-- **Conservation of submitted values**: the values that the proposer took from clients are, each as
often as it was submitted, those in its queue, those of its own that have slots above the decided
ones, and those that were delivered in the slots in which they were its own. -/
theorem Run.conserved (h : Run l) :
    (l.submitted : Multiset Value) = l.proposer.queue + l.proposer.owned + l.settled :=
  h.balanced.submitted_eq

/-- The ledger after a list of events, if all of them are allowed and happen. -/
def replay : Ledger → List Event → Option Ledger
  | l, [] => some l
  | l, e :: es =>
    if e.Allowed then
      match l.step e with
      | .ok l' => replay l' es
      | .error _ => none
    else none

theorem run_of_replay {l l' : Ledger} {es : List Event} (hl : Run l)
    (h : l.replay es = some l') : Run l' := by
  induction es generalizing l with
  | nil =>
    obtain rfl := Option.some.inj h
    exact hl
  | cons e es ih =>
    unfold replay at h
    split at h
    · rename_i hallowed
      split at h
      · rename_i l₁ hstep
        exact ih (hl.step hallowed hstep) h
      · cases h
    · cases h

/-- A run that a replay shows. -/
theorem exists_run {l : Ledger} (hl : Run l) (es : List Event) (P : Ledger → Prop) [DecidablePred P]
    (h : (l.replay es).any (fun l => decide (P l)) = true) : ∃ l, Run l ∧ P l := by
  cases hreplay : l.replay es with
  | none =>
    rw [hreplay] at h
    cases h
  | some l' =>
    rw [hreplay] at h
    exact ⟨l', run_of_replay hl hreplay, of_decide_eq_true h⟩

/-- Of four values one is delivered in its slot, one loses its slot to another leader's value, and one
is displaced by a vote that is reported when the proposer leads again. -/
theorem conserved_of_lost_and_displaced : ∃ l, Run l ∧ l.proposer.queue = [.appBatch [67]] ∧
    l.proposer.owned = [.appBatch [68], .appBatch [66]] ∧ l.settled = [.appBatch [65]] ∧
      (l.submitted : Multiset Value) = l.proposer.queue + l.proposer.owned + l.settled := by
  let s : RoleSettings := ReplicaSettings.roles {}
  let e : EpochVector := .zeros 3
  let r : Round := ⟨1, 0⟩
  let r' : Round := ⟨2, 1⟩
  let r'' : Round := ⟨3, 0⟩
  let other := Value.appBatch [88]
  obtain ⟨l, hl, hqueue, howned, hsettled⟩ := exists_run (Run.start s s 0 0 e e)
    [.propose (.trust 0), .propose (.promise ⟨0, r, [], e⟩), .propose (.promise ⟨1, r, [], e⟩),
      .propose (.submit (.appBatch [65])), .propose (.submit (.appBatch [66])),
      .propose (.submit (.appBatch [67])), .propose (.submit (.appBatch [68])),
      .learn (.learn ⟨0, 1, r, .appBatch [65], e⟩), .learn (.learn ⟨1, 1, r, .appBatch [65], e⟩),
      .hear, .learn (.learn ⟨1, 2, r', other, e⟩), .learn (.learn ⟨2, 2, r', other, e⟩), .hear,
      .propose (.trust 1), .propose (.hear r'), .propose (.trust 0),
      .propose (.promise ⟨1, r'', [⟨3, r', other⟩], e⟩), .propose (.promise ⟨2, r'', [], e⟩)]
    (fun l => l.proposer.queue = [.appBatch [67]] ∧
      l.proposer.owned = [.appBatch [68], .appBatch [66]] ∧ l.settled = [.appBatch [65]])
    (by decide +kernel)
  exact ⟨l, hl, hqueue, howned, hsettled, hl.conserved⟩

end Ledger

/-- The proposer and the learner of a replica keep such a ledger, in every reachable world. -/
theorem Reachable.exists_ledger {c : ReplicaSettings} {Env : World → Event → Prop} {w : World}
    (h : Reachable c Env w) (i : Nat) :
    ∃ settled, Ledger.Run
      ⟨w.proposers i, w.learners i, w.waiting i, w.submitted i, settled⟩ := by
  induction h generalizing i with
  | start =>
    exact ⟨[], .start c.roles c.roles i i (.zeros c.replicas) (.zeros c.replicas)⟩
  | @step w w' e hw _ hallowed hstep ih =>
    obtain ⟨settled, hrun⟩ := ih i
    cases World.steps_of_step hstep with
    | acceptor => exact ⟨settled, hrun⟩
    | snapshot => exact ⟨settled, hrun⟩
    | @proposer j x p out act =>
      by_cases hj : i = j
      · subst hj
        refine ⟨settled, hrun.step (e := .propose x) ?_ ?_⟩
        · unfold Ledger.Event.Allowed
          split
          · rename_i heq
            cases heq
            exact hallowed
          · trivial
        · simp only [Function.update_self]
          exact Checked.bind_eq_ok_iff.mpr ⟨_, act, rfl⟩
      · refine ⟨settled, ?_⟩
        simp only [Function.update_of_ne hj]
        exact hrun
    | nothing => exact ⟨settled, hrun⟩
    | @handOver j note rest p out waiting_eq act =>
      by_cases hj : i = j
      · subst hj
        -- it hears of the round first
        have hheard : Ledger.Run ⟨(w.proposers i).hear note.round, w.learners i, w.waiting i,
            w.submitted i, settled⟩ := by
          have hstep := hrun.step (e := .propose (.hear note.round)) trivial rfl
          rwa [Option.toList_none, List.append_nil] at hstep
        obtain ⟨⟨p', out'⟩, hnote, hret⟩ := Checked.bind_eq_ok_iff.mp act
        cases hret
        refine ⟨settled ++ ((w.proposers i).hear note.round).settledBy note.decided,
          hheard.step (e := .hear) trivial ?_⟩
        simp only [Ledger.step, waiting_eq, Function.update_self]
        exact Checked.bind_eq_ok_iff.mpr ⟨_, hnote, rfl⟩
      · refine ⟨settled, ?_⟩
        simp only [Function.update_of_ne hj]
        exact hrun
    | @learner j x l d act =>
      by_cases hj : i = j
      · subst hj
        refine ⟨settled, hrun.step (e := .learn x) trivial ?_⟩
        simp only [Function.update_self]
        exact Checked.bind_eq_ok_iff.mpr ⟨_, act, rfl⟩
      · refine ⟨settled, ?_⟩
        simp only [Function.update_of_ne hj]
        exact hrun

end ReplicatedLog
