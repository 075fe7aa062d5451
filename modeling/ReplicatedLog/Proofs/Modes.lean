import ReplicatedLog.Proofs.Erasure
import ReplicatedLog.Proofs.Mandate
import ReplicatedLog.Proofs.Tallies
import ReplicatedLog.Proofs.Voting

/-!
# Where everybody agrees, the mode makes no difference

In epoch-aware mode an acceptor turns away leaders that do not know its epoch, and promises or votes are
a quorum only if no two of them conflict. As long as all views of the membership agree, none of this
ever happens: every proposal is admitted, and messages of different senders are a quorum as soon as
there are enough. Views agree if they name the same epochs; they may differ in length, and then a
learner does find that votes disagree with its own view, and looks for a valid quorum among them. It
finds one.

So from the same inputs a role in epoch-aware mode does what one in plain mode does (`modes_agree`). The
promises that a proposer holds arrived since it asked for them, and those of a sender replace each other
(`Proposer.agrees_of_runs`); the votes in a tally are of different senders, too
(`Learner.agrees_of_runs`).
-/

namespace ReplicatedLog

variable {s : RoleSettings} {id : Nat} {epochs own : EpochVector}

/-! ### What the modes decide -/

namespace Mode

/-- Every mode admits a proposal of a leader that knows the acceptor's epoch. -/
theorem admits_of_agrees (mode : Mode) {i : Nat} {m : Accept} (hown : own.Agrees epochs)
    (hm : m.epochs.Agrees epochs) : mode.admits i own m = true := by
  cases mode with
  | plain => rfl
  | epochAware => exact beq_iff_eq.mpr ((hm i).trans (hown i).symm)

/-- Every mode finds a quorum among enough promises whose views agree. -/
theorem quorumOfPromises_of_agrees (mode : Mode) {promises : List Promise} {quorum : Nat}
    (hviews : ∀ m ∈ promises, m.epochs.Agrees epochs) (hnodup : (promises.map Promise.sender).Nodup)
    (henough : quorum ≤ promises.length) : mode.quorumOfPromises promises quorum ≠ none := by
  rw [quorumOfPromises.eq_def, if_pos henough]
  cases mode with
  | plain => simp
  | epochAware =>
    have hstamps : ∀ s ∈ promises.map Promise.stamp, s.epochs.Agrees epochs := by
      simpa [Promise.stamp] using hviews
    apply Option.isSome_iff_ne_none.mp
    apply isSome_firstValidQuorum_of_agrees hstamps
    · rwa [List.map_map]
    · rwa [List.length_map]

/-- Every mode settles a slot by enough votes whose views agree, also if they do not look alike. -/
theorem settles_of_agrees (mode : Mode) {votes : List Learn} {quorum : Nat} (disputed : Bool)
    (hviews : ∀ m ∈ votes, m.epochs.Agrees epochs) (hnodup : (votes.map Learn.sender).Nodup)
    (henough : quorum ≤ votes.length) : mode.settles votes quorum disputed = true := by
  rw [settles.eq_def, decide_eq_true henough, Bool.true_and]
  cases mode with
  | plain => rfl
  | epochAware =>
    have hstamps : ∀ s ∈ votes.map Learn.stamp, s.epochs.Agrees epochs := by
      simpa [Learn.stamp] using hviews
    dsimp only
    rw [Bool.or_eq_true]
    right
    apply isSome_firstValidQuorum_of_agrees hstamps
    · rwa [List.map_map]
    · rwa [List.length_map]

end Mode

/-- Whatever view of the membership an input carries, it agrees with `epochs`. -/
def Agreeing {ι : Type} (view? : ι → Option EpochVector) (epochs : EpochVector) (x : ι) : Prop :=
  ∀ view ∈ view? x, view.Agrees epochs

instance {ι : Type} (view? : ι → Option EpochVector) (epochs : EpochVector) :
    DecidablePred (Agreeing view? epochs) := fun x =>
  inferInstanceAs (Decidable (∀ view ∈ view? x, view.Agrees epochs))

/-! ### Acceptors -/

namespace Acceptor

/-- The view of the membership that an input carries. -/
def Input.view? : Input → Option EpochVector
  | .accept m => some m.epochs
  | .setEpochs epochs => some epochs
  | _ => none

variable {a : Acceptor} {past : List (Turn Acceptor Input (List Outgoing))}

/-- Its own view agrees with those of others. -/
theorem agrees_of_runs (h : Runs act (Replica.start s id epochs).acceptor a past)
    (hpast : ∀ t ∈ past, Agreeing Input.view? epochs t.input) : a.epochs.Agrees epochs := by
  induction h with
  | nil => exact fun _ => rfl
  | step _ act_eq ih =>
    rw [List.forall_mem_append, List.forall_mem_singleton] at hpast
    rcases (view_of_act act_eq).2 with heq | hset
    · rw [heq]
      exact ih hpast.1
    · rw [hset] at hpast
      exact hpast.2 _ rfl

theorem erases_plainly (s : RoleSettings) (id : Nat) (epochs : EpochVector) :
    Erases act plainly (Agreeing Input.view? epochs) (Replica.start s id epochs).acceptor := by
  intro a past x hrun hpast hx
  apply act_plainly
  rintro m rfl
  exact a.mode.admits_of_agrees (agrees_of_runs hrun hpast) (hx _ rfl)

end Acceptor

/-! ### Proposers -/

namespace Proposer

/-- The view of the membership that an input carries. -/
def Input.view? : Input → Option EpochVector
  | .promise m => some m.epochs
  | .setEpochs epochs => some epochs
  | _ => none

variable {p : Proposer} {past : Past}

/-- The promises of a proposer in phase one agree. -/
theorem agrees_of_runs (h : Runs act (Replica.start s id epochs).proposer p past)
    (hpast : ∀ t ∈ past, Agreeing Input.view? epochs t.input) (hphase : p.phase = .one) :
    ∀ m ∈ p.promises, m.epochs.Agrees epochs := by
  intro m hm
  obtain ⟨since, ⟨earlier, asked, _, rfl, -⟩, harrived⟩ :=
    (mandated_of_runs h).asked (by simp [hphase])
  obtain ⟨t, ht, hinput⟩ := List.mem_filterMap.mp (harrived m hm).2
  have hpromise : t.input = .promise m := by
    revert hinput
    cases t.input <;> simp [Input.promise?]
  have hagrees := hpast t (by simp [ht])
  rw [hpromise] at hagrees
  exact hagrees _ rfl

theorem erases_plainly (s : RoleSettings) (id : Nat) (epochs : EpochVector) :
    Erases act plainly (Agreeing Input.view? epochs) (Replica.start s id epochs).proposer := by
  intro p past x hrun hpast hx
  apply act_plainly
  rintro m rfl hphase henough
  have hviews : ∀ m' ∈ recordPromise p.promises m, m'.epochs.Agrees epochs := by
    intro m' hm'
    rcases mem_recordPromise hm' with rfl | hm'
    · exact hx _ rfl
    · exact agrees_of_runs hrun hpast hphase m' hm'
  have hnodup := nodup_recordPromise m (mandated_of_runs hrun).nodup
  exact p.mode.quorumOfPromises_of_agrees hviews hnodup henough

end Proposer

/-! ### Learners -/

/-- A vote in a tally that counted one was there before, or it is the one that was counted. -/
theorem Tally.mem_votes_of_count {t t' : Tally} {mode : Mode} {m vote : Learn}
    (h : t.count mode own m = some t') (hvote : vote ∈ t'.votes) : vote ∈ t.votes ∨ vote = m := by
  obtain ⟨-, -, -, -, rfl⟩ := count_eq_some h
  rcases List.mem_append.mp hvote with hold | hnew
  · exact Or.inl (mem_votes_of_mem_joined hold)
  · exact Or.inr (List.mem_singleton.mp hnew)

namespace Learner

/-- The view of the membership that an input carries. -/
def Input.view? : Input → Option EpochVector
  | .learn m => some m.epochs
  | .setEpochs epochs => some epochs
  | _ => none

variable {l l' : Learner} {x : Input} {d : Delivery} {past : Past} {slot : Nat} {t : Tally}

/-- A vote in a changed tally was there before, or it has just arrived. -/
theorem Changes.mem_votes (h : l.Changes x slot t) {vote : Learn} (hvote : vote ∈ t.votes) :
    vote ∈ (l.tally slot).votes ∨ x = .learn vote := by
  cases h with
  | same => exact Or.inl hvote
  | counts input_eq _ _ count_eq =>
    rw [input_eq, Input.learn.injEq, eq_comm]
    exact Tally.mem_votes_of_count count_eq hvote
  | settles input_eq _ _ count_eq =>
    rw [input_eq, Input.learn.injEq, eq_comm]
    exact Tally.mem_votes_of_count count_eq hvote
  | takes => exact Or.inl hvote

/-- The votes for a slot agree, and are of different senders. -/
theorem agrees_of_runs (h : Runs act (Replica.start s id epochs).learner l past)
    (hpast : ∀ t ∈ past, Agreeing Input.view? epochs t.input) (slot : Nat) :
    (l.tally slot).Uniform slot ∧ ∀ vote ∈ (l.tally slot).votes, vote.epochs.Agrees epochs := by
  induction h with
  | nil =>
    rw [tally_start]
    exact ⟨Tally.uniform_default slot, fun vote hvote => absurd hvote List.not_mem_nil⟩
  | step _ act_eq ih =>
    rw [List.forall_mem_append, List.forall_mem_singleton] at hpast
    obtain ⟨huniform, hviews⟩ := ih hpast.1
    rcases tally_cases_of_act act_eq slot with hblank | ⟨t, decided, hchanges, heq⟩
    · rw [hblank]
      exact ⟨Tally.uniform_default slot, fun vote hvote => absurd hvote List.not_mem_nil⟩
    · rw [heq]
      refine ⟨(hchanges.uniform huniform).congr _ _, fun vote hvote => ?_⟩
      rcases hchanges.mem_votes hvote with hold | rfl
      · exact hviews vote hold
      · exact hpast.2 _ rfl

theorem erases_plainly (s : RoleSettings) (id : Nat) (epochs : EpochVector) :
    Erases act plainly (Agreeing Input.view? epochs) (Replica.start s id epochs).learner := by
  intro l past x hrun hpast hx
  apply act_plainly
  rintro m rfl t hcount henough
  obtain ⟨huniform, hagrees⟩ := agrees_of_runs hrun hpast m.slot
  have hviews : ∀ vote ∈ t.votes, vote.epochs.Agrees epochs := by
    intro vote hvote
    rcases Tally.mem_votes_of_count hcount hvote with hold | rfl
    · exact hagrees vote hold
    · exact hx _ rfl
  have hnodup := Tally.nodup_of_count huniform.nodup hcount
  exact l.mode.settles_of_agrees t.disputed hviews hnodup henough

end Learner

/-! ### Replicas -/

/-- **Epoch-aware mode extends plain mode.** Two replicas are set up alike, but for the mode, and whatever
views of the membership they are given or told of agree with the one that they start with. Then their
roles give the same answers to the same inputs, and come to the same state, but for the mode and what a
learner notes about views. So acceptors hand over the same votes, and proposers reply the same to
clients, also where they refuse a value. -/
theorem modes_agree {plain aware : Replica}
    (hplain : plain = .start { s with mode := .plain } id epochs)
    (haware : aware = .start { s with mode := .epochAware } id epochs) :
    (∀ xs, (∀ x ∈ xs, Agreeing Acceptor.Input.view? epochs x) →
      answers Acceptor.act plain.acceptor xs = answers Acceptor.act aware.acceptor xs ∧
      after Acceptor.act plain.acceptor xs =
        Acceptor.plainly <$> after Acceptor.act aware.acceptor xs ∧
      ∀ slot, (after Acceptor.act plain.acceptor xs >>= (·.votesAbove slot)) =
        after Acceptor.act aware.acceptor xs >>= (·.votesAbove slot)) ∧
    (∀ xs, (∀ x ∈ xs, Agreeing Proposer.Input.view? epochs x) →
      answers Proposer.act plain.proposer xs = answers Proposer.act aware.proposer xs ∧
      after Proposer.act plain.proposer xs =
        Proposer.plainly <$> after Proposer.act aware.proposer xs ∧
      ∀ value, Prod.snd <$> (after Proposer.act plain.proposer xs >>= (·.submit value)) =
        Prod.snd <$> (after Proposer.act aware.proposer xs >>= (·.submit value))) ∧
    (∀ xs, (∀ x ∈ xs, Agreeing Learner.Input.view? epochs x) →
      answers Learner.act plain.learner xs = answers Learner.act aware.learner xs ∧
      after Learner.act plain.learner xs =
        Learner.plainly <$> after Learner.act aware.learner xs) := by
  refine ⟨fun xs hxs => ?_, fun xs hxs => ?_, fun xs hxs => ?_⟩
  · have hstart : plain.acceptor = aware.acceptor.plainly := by
      rw [hplain, haware]
      rfl
    have herases := Acceptor.erases_plainly { s with mode := .epochAware } id epochs
    rw [← haware] at herases
    obtain ⟨hanswers, hafter⟩ := herases.run .nil (List.forall_mem_nil _) hxs
    rw [hstart, hanswers, hafter]
    refine ⟨rfl, rfl, fun slot => ?_⟩
    simp only [bind_map_left, Acceptor.votesAbove_plainly]
  · have hstart : plain.proposer = aware.proposer.plainly := by
      rw [hplain, haware]
      rfl
    have herases := Proposer.erases_plainly { s with mode := .epochAware } id epochs
    rw [← haware] at herases
    obtain ⟨hanswers, hafter⟩ := herases.run .nil (List.forall_mem_nil _) hxs
    rw [hstart, hanswers, hafter]
    refine ⟨rfl, rfl, fun value => ?_⟩
    rw [bind_map_left, map_bind, map_bind]
    congr 1
    funext p
    rw [Proposer.submit_plainly]
    cases p.submit value <;> rfl
  · have hstart : plain.learner = aware.learner.plainly := by
      rw [hplain, haware, Learner.plainly, Replica.start, Replica.start, Window.map_empty]
    have herases := Learner.erases_plainly { s with mode := .epochAware } id epochs
    rw [← haware] at herases
    obtain ⟨hanswers, hafter⟩ := herases.run .nil (List.forall_mem_nil _) hxs
    rw [hstart, hanswers, hafter]
    exact ⟨rfl, rfl⟩

/-- Views of different lengths that agree. In both modes a proposal gets a vote, promises let a proposer
begin, and votes settle slot 1, which the learner in epoch-aware mode notes as disputed. -/
theorem modes_agree_of_lengths : ∃ (plain aware : Replica) (proposals : List Acceptor.Input)
    (promises : List Proposer.Input) (votes : List Learner.Input),
    plain = .start ⟨2, 3, 10, 8, .plain⟩ 0 ⟨[0, 1]⟩ ∧
    aware = .start ⟨2, 3, 10, 8, .epochAware⟩ 0 ⟨[0, 1]⟩ ∧
    proposals = [.accept ⟨1, ⟨1, 1⟩, 1, .noop, ⟨[0, 1, 0]⟩⟩] ∧
    promises = [.trust 0, .promise ⟨1, ⟨1, 0⟩, [], ⟨[0, 1, 0]⟩⟩, .submit .noop,
      .promise ⟨2, ⟨1, 0⟩, [], ⟨[0, 1]⟩⟩] ∧
    votes = [.learn ⟨1, 1, ⟨1, 1⟩, .noop, ⟨[0, 1, 0]⟩⟩, .learn ⟨2, 1, ⟨1, 1⟩, .noop, ⟨[0, 1]⟩⟩] ∧
    (answers Acceptor.act aware.acceptor proposals).map Except.toOption =
      [some [.broadcast (.learn ⟨0, 1, ⟨1, 1⟩, .noop, ⟨[0, 1]⟩⟩)]] ∧
    answers Acceptor.act plain.acceptor proposals = answers Acceptor.act aware.acceptor proposals ∧
    (answers Proposer.act aware.proposer promises).getLast?.bind Except.toOption =
      some { outbound := [.broadcast (.accept ⟨0, ⟨1, 0⟩, 1, .noop, ⟨[0, 1]⟩⟩)] } ∧
    answers Proposer.act plain.proposer promises = answers Proposer.act aware.proposer promises ∧
    (answers Learner.act aware.learner votes).map Except.toOption =
      [some {}, some { delivered := [(1, .noop)] }] ∧
    answers Learner.act plain.learner votes = answers Learner.act aware.learner votes ∧
    (after Learner.act aware.learner votes).toOption.map (fun l => (l.tally 1).disputed) =
      some true := by
  let plain : Replica := .start ⟨2, 3, 10, 8, .plain⟩ 0 ⟨[0, 1]⟩
  let aware : Replica := .start ⟨2, 3, 10, 8, .epochAware⟩ 0 ⟨[0, 1]⟩
  obtain ⟨hacceptor, hproposer, hlearner⟩ :=
    @modes_agree ⟨2, 3, 10, 8, .plain⟩ 0 ⟨[0, 1]⟩ plain aware rfl rfl
  refine ⟨plain, aware, _, _, _, rfl, rfl, rfl, rfl, rfl, ?_, ?_, ?_, ?_, ?_, ?_, ?_⟩
  · decide +kernel
  · exact (hacceptor _ (by decide)).1
  · decide +kernel
  · exact (hproposer _ (by decide)).1
  · decide +kernel
  · exact (hlearner _ (by decide)).1
  · decide +kernel

end ReplicatedLog
