import ReplicatedLog.Proofs.Extent
import ReplicatedLog.Service.Acceptor

/-!
# Handing votes over

A running acceptor that has handed its votes over pauses until the ticket is released. For everybody else
the pause cannot be told from slowness: requests are handled in the order in which they arrive, each exactly
as it would be without the handoffs among them.

What a request that is no handoff does depends on the role alone, and a handoff leaves the role as it is
(`AcceptorService.handle_cases`). So the requests that were handled give the state and the messages of the
run without handoffs, and each answer is taken from the state of that run (`AcceptorService.Follows`). A
request is handled only while no ticket is awaited, which keeps the last one that was handled the handoff
whose ticket is (`Follows.handle`, `Follows.drain`). `transparent_pauses` says this of runs.
-/

namespace ReplicatedLog

namespace AcceptorRequest

/-- Whether a request is for the votes of the acceptor. -/
def isHandoff : AcceptorRequest → Bool
  | .handoff .. => true
  | _ => false

/-- What a request is for the role; nothing, if it is a handoff or a message for another role. -/
def roleInput : AcceptorRequest → Option Acceptor.Input
  | .message (.prepare m) => some (.prepare m)
  | .message (.accept m) => some (.accept m)
  | .message _ => none
  | .setEpochs epochs => some (.setEpochs epochs)
  | .handoff .. => none
  | .install votes => some (.takeOver votes)
  | .raiseLow slot => some (.raiseLow slot)

/-- What a request is about are slots below `b`. -/
def Within (b : Nat) : AcceptorRequest → Prop
  | .message (.prepare m) => m.slot < b
  | .message (.accept m) => m.slot < b
  | .handoff slot _ => slot < b
  | .install votes => ∀ r ∈ votes.votes, r.slot < b
  | .raiseLow slot => slot < b
  | _ => True

instance (b : Nat) (r : AcceptorRequest) : Decidable (r.Within b) := by
  unfold Within
  split <;> infer_instance

theorem within_of_roleInput {b : Nat} {r : AcceptorRequest} {i : Acceptor.Input}
    (h : r.roleInput = some i) (hr : r.Within b) : i.Within b := by
  cases r with
  | message m =>
    cases m with
    | prepare m =>
      cases h
      exact hr
    | accept m =>
      cases h
      exact hr
    | _ => cases h
  | setEpochs epochs =>
    cases h
    trivial
  | handoff slot ticket => cases h
  | install votes =>
    cases h
    exact hr
  | raiseLow slot =>
    cases h
    exact hr

end AcceptorRequest

namespace AcceptorService

variable {s s' : AcceptorService} {r : AcceptorRequest} {effects out : List Effect}
  {handled rest before : List AcceptorRequest} {c : ReplicaSettings} {b : Nat}

/-! ### Single requests -/

theorem handle_of_roleInput {i : Acceptor.Input} (h : r.roleInput = some i) (s : AcceptorService) :
    s.handle r = do
      let (acceptor, sent) ← s.acceptor.act i
      return ({ s with acceptor }, sent.map .send) := by
  cases r with
  | message m =>
    cases m with
    | prepare m =>
      cases h
      simp [handle, Acceptor.act, Function.comp_def]
    | accept m =>
      cases h
      simp [handle, Acceptor.act, Function.comp_def]
    | _ => cases h
  | setEpochs epochs =>
    cases h
    simp [handle, Acceptor.act]
  | handoff slot ticket => cases h
  | install votes =>
    cases h
    simp [handle, Acceptor.act]
  | raiseLow slot =>
    cases h
    simp [handle, Acceptor.act]

/-- **What a request does.** A handoff is answered with the votes and changes nothing but the ticket that is
awaited. What any other request does depends on the role alone. -/
theorem handle_cases (h : s.handle r = .ok (s', out)) :
    (∃ slot ticket votes, r = .handoff slot ticket ∧ s.acceptor.votesAbove slot = .ok votes ∧
      s' = { s with awaiting := if s.released.contains ticket then none else some ticket } ∧
      out = [.snapshot votes]) ∨
    (r.isHandoff = false ∧ ∃ (acceptor : Acceptor) (sent : List Outgoing),
      s' = { s with acceptor } ∧ out = sent.map .send ∧
      ∀ s₁ : AcceptorService, s₁.acceptor = s.acceptor →
        s₁.handle r = .ok ({ s₁ with acceptor }, out)) := by
  cases hinput : r.roleInput with
  | some i =>
    right
    have hnot : r.isHandoff = false := by
      cases r with
      | handoff => cases hinput
      | _ => rfl
    rw [handle_of_roleInput hinput] at h
    obtain ⟨⟨acceptor, sent⟩, hact, hret⟩ := Checked.bind_eq_ok_iff.mp h
    cases hret
    refine ⟨hnot, acceptor, sent, rfl, rfl, fun s₁ hsame => ?_⟩
    rw [handle_of_roleInput hinput, hsame, hact]
    rfl
  | none =>
    cases r with
    | message m =>
      right
      have hskip : ∀ s₁ : AcceptorService, s₁.handle (.message m) = .ok (s₁, []) := by
        intro s₁
        cases m with
        | prepare => cases hinput
        | accept => cases hinput
        | _ => rfl
      rw [hskip] at h
      cases h
      refine ⟨rfl, s.acceptor, [], rfl, rfl, fun s₁ hsame => ?_⟩
      rw [hskip, ← hsame]
    | handoff slot ticket =>
      left
      obtain ⟨votes, hvotes, hret⟩ := Checked.bind_eq_ok_iff.mp h
      cases hret
      exact ⟨slot, ticket, votes, rfl, hvotes, rfl, rfl⟩
    | setEpochs => cases hinput
    | install => cases hinput
    | raiseLow => cases hinput

/-! ### What can happen to a running acceptor -/

/-- What can happen to a running acceptor. -/
inductive Input where
  /-- A request arrives. -/
  | arrive (request : AcceptorRequest)
  /-- A ticket is released, or whoever kept it is gone. -/
  | release (ticket : Nat)
  deriving DecidableEq, Repr

/-- The running acceptor after an input, and what it does about it. -/
def step (s : AcceptorService) : Input → Checked (AcceptorService × List Effect)
  | .arrive request => s.arrive request
  | .release ticket => s.release ticket

/-- The steps of a run, in order. -/
abbrev Past := List (Turn AcceptorService Input (List Effect))

/-- The request that arrives, if one does. -/
def Input.request? : Input → Option AcceptorRequest
  | .arrive request => some request
  | .release _ => none

/-- The requests that arrived in a run, in order. -/
def arrivals (past : Past) : List AcceptorRequest := past.filterMap fun t => t.input.request?

/-- A ticket was released in a run. -/
def Released (past : Past) (ticket : Nat) : Prop := .release ticket ∈ past.map Turn.input

instance (past : Past) (ticket : Nat) : Decidable (Released past ticket) :=
  inferInstanceAs (Decidable (_ ∈ _))

/-- What was done in a run, in order. -/
def effectsIn (past : Past) : List Effect := past.flatMap Turn.output

/-- The messages sent, among what was done. -/
def sent (effects : List Effect) : List Outgoing :=
  effects.filterMap fun
    | .send o => some o
    | _ => none

/-- The answers to handoffs, among what was done. -/
def snapshots (effects : List Effect) : List Snapshot :=
  effects.filterMap fun
    | .snapshot votes => some votes
    | _ => none

/-- How many handoffs there are among requests. -/
def handoffs (requests : List AcceptorRequest) : Nat := requests.countP AcceptorRequest.isHandoff

/-- A run in which exactly the given requests arrive, without the handoffs among them, and which leads to
the given state of the role. -/
def PlainRun (c : ReplicaSettings) (requests : List AcceptorRequest) (a : Acceptor) (past : Past) :
    Prop :=
  Runs step (start c) { acceptor := a } past ∧
    past.map Turn.input = (requests.filter fun r => !r.isHandoff).map .arrive

variable {past : Past} {a : Acceptor}

@[simp]
theorem arrivals_append (past later : Past) : arrivals (past ++ later) = arrivals past ++ arrivals later :=
  List.filterMap_append

theorem arrivals_singleton (t : Turn AcceptorService Input (List Effect)) :
    arrivals [t] = t.input.request?.toList := by
  cases h : t.input.request? <;> simp [arrivals, h]

@[simp]
theorem effectsIn_append (past later : Past) :
    effectsIn (past ++ later) = effectsIn past ++ effectsIn later := List.flatMap_append

@[simp]
theorem sent_append (effects out : List Effect) : sent (effects ++ out) = sent effects ++ sent out :=
  List.filterMap_append

@[simp]
theorem snapshots_append (effects out : List Effect) :
    snapshots (effects ++ out) = snapshots effects ++ snapshots out := List.filterMap_append

@[simp]
theorem sent_snapshot (votes : Snapshot) : sent [.snapshot votes] = [] := rfl

@[simp]
theorem snapshots_send (out : List Outgoing) : snapshots (out.map .send) = [] := by
  simp [snapshots]

@[simp]
theorem handoffs_append (requests rest : List AcceptorRequest) :
    handoffs (requests ++ rest) = handoffs requests + handoffs rest := List.countP_append

/-! ### Handling -/

/-- Requests were handled one after the other, so far: the state of the role and what was done about them.
-/
structure Follows (c : ReplicaSettings) (s : AcceptorService) (handled : List AcceptorRequest)
    (effects : List Effect) : Prop where
  /-- The role and its messages are those of the run without the handoffs. -/
  plain : ∃ past, PlainRun c handled s.acceptor past ∧ sent (effectsIn past) = sent effects
  /-- Each handoff is answered with the votes that the run without handoffs has led to by then. -/
  answered : ∀ before slot ticket after, handled = before ++ .handoff slot ticket :: after →
    ∃ a past votes, PlainRun c before a past ∧ a.votesAbove slot = .ok votes ∧
      (snapshots effects)[handoffs before]? = some votes
  /-- No other answer is given. -/
  length_snapshots : (snapshots effects).length = handoffs handled
  /-- A handoff whose ticket is not released is the last request that was handled. -/
  pauses : ∀ before slot ticket after, handled = before ++ .handoff slot ticket :: after →
    ticket ∉ s.released → after = [] ∧ s.awaiting = some ticket
  /-- Nothing was done since, and no other ticket is awaited. -/
  paused : ∀ ticket, s.awaiting = some ticket → ticket ∉ s.released ∧
    (∃ before slot, handled = before ++ [.handoff slot ticket]) ∧
      ∃ earlier votes, effects = earlier ++ [.snapshot votes]

theorem follows_start (c : ReplicaSettings) : Follows c (start c) [] [] where
  plain := ⟨[], ⟨.nil, rfl⟩, rfl⟩
  answered := by simp
  length_snapshots := rfl
  pauses := by simp
  paused := by simp [start]

/-- A handoff is not part of the run without handoffs. -/
theorem plainRun_handoff_iff {slot ticket : Nat} :
    PlainRun c (handled ++ [.handoff slot ticket]) a past ↔ PlainRun c handled a past := by
  simp [PlainRun, AcceptorRequest.isHandoff]

/-- Any other request is handled at once in the run without handoffs. -/
theorem PlainRun.request (h : PlainRun c handled a past) (hnot : r.isHandoff = false) {a' : Acceptor}
    (hhandle : ({ acceptor := a } : AcceptorService).handle r = .ok ({ acceptor := a' }, out)) :
    PlainRun c (handled ++ [r]) a'
      (past ++ [⟨{ acceptor := a }, .arrive r, { acceptor := a' }, out⟩]) := by
  refine ⟨h.1.step ?_, by simp [h.2, hnot]⟩
  -- no ticket is awaited, so the request is handled, and it is the only one
  refine Checked.bind_eq_ok_iff.mpr ⟨_, hhandle, Checked.bind_eq_ok_iff.mpr ⟨_, rfl, ?_⟩⟩
  dsimp only
  rw [List.append_nil]
  rfl

/-- What was answered stays answered. -/
theorem Follows.answered_append (hs : Follows c s handled effects) (out : List Effect)
    {slot ticket : Nat} {after : List AcceptorRequest}
    (heq : before ++ .handoff slot ticket :: after = handled) :
    ∃ a past votes, PlainRun c before a past ∧ a.votesAbove slot = .ok votes ∧
      (snapshots (effects ++ out))[handoffs before]? = some votes := by
  obtain ⟨a, past, votes, hplain, hvotes, hanswer⟩ := hs.answered before slot ticket after heq.symm
  refine ⟨a, past, votes, hplain, hvotes, ?_⟩
  rw [snapshots_append]
  exact (List.getElem?_append_left (List.getElem?_eq_some_iff.mp hanswer).1).trans hanswer

/-- If no ticket is awaited, those of all handoffs so far are released. -/
theorem Follows.released (hs : Follows c s handled effects) (hfree : s.awaiting = none)
    {slot ticket : Nat} {after : List AcceptorRequest}
    (heq : before ++ .handoff slot ticket :: after = handled) : ticket ∈ s.released := by
  by_contra hkept
  rw [(hs.pauses before slot ticket after heq.symm hkept).2] at hfree
  cases hfree

/-- A handoff is handled: it is answered from the state that the role is in, and its ticket is awaited
unless it is released. -/
theorem Follows.handoff (hs : Follows c s handled effects) (hfree : s.awaiting = none)
    {slot : Nat} {votes : Snapshot} (hvotes : s.acceptor.votesAbove slot = .ok votes) (ticket : Nat) :
    Follows c { s with awaiting := if s.released.contains ticket then none else some ticket }
      (handled ++ [.handoff slot ticket]) (effects ++ [.snapshot votes]) where
  plain := by
    obtain ⟨past, hplain, hsent⟩ := hs.plain
    exact ⟨past, plainRun_handoff_iff.mpr hplain, by simp [hsent]⟩
  answered before slot' ticket' after heq := by
    rcases last_or_before heq.symm with ⟨rfl, hlast⟩ | ⟨after', hbefore⟩
    · cases hlast
      obtain ⟨past, hplain, -⟩ := hs.plain
      refine ⟨s.acceptor, past, votes, hplain, hvotes, ?_⟩
      rw [snapshots_append, ← hs.length_snapshots, List.getElem?_append_right le_rfl, Nat.sub_self]
      rfl
    · exact hs.answered_append _ hbefore
  length_snapshots := by
    rw [snapshots_append, List.length_append, hs.length_snapshots, handoffs_append]
    rfl
  pauses before slot' ticket' after heq hkept := by
    rcases last_or_before heq.symm with ⟨rfl, hlast⟩ | ⟨after', hbefore⟩
    · cases hlast
      exact ⟨by simpa using heq, by simpa using hkept⟩
    · exact absurd (hs.released hfree hbefore) hkept
  paused ticket' hawaits := by
    dsimp only at hawaits
    split at hawaits
    · cases hawaits
    · rename_i hkept
      cases hawaits
      exact ⟨by simpa using hkept, ⟨handled, slot, rfl⟩, effects, votes, rfl⟩

/-- Any other request is handled: it does what it does in the run without handoffs. -/
theorem Follows.request (hs : Follows c s handled effects) (hfree : s.awaiting = none)
    (hnot : r.isHandoff = false) {acceptor : Acceptor} {messages : List Outgoing}
    (hhandle : ({ acceptor := s.acceptor } : AcceptorService).handle r =
      .ok ({ acceptor := acceptor }, messages.map .send)) :
    Follows c { s with acceptor } (handled ++ [r]) (effects ++ messages.map .send) := by
  have hbefore : ∀ {before slot ticket after},
      handled ++ [r] = before ++ .handoff slot ticket :: after →
        ∃ after', before ++ .handoff slot ticket :: after' = handled := by
    intro before slot ticket after heq
    rcases last_or_before heq.symm with ⟨-, rfl⟩ | hbefore
    · cases hnot
    · exact hbefore
  constructor
  case plain =>
    obtain ⟨past, hplain, hsent⟩ := hs.plain
    refine ⟨_, hplain.request hnot hhandle, ?_⟩
    rw [effectsIn_append, sent_append, sent_append, hsent]
    simp [effectsIn]
  case answered =>
    intro before slot ticket after heq
    exact hs.answered_append _ (hbefore heq).choose_spec
  case length_snapshots =>
    rw [snapshots_append, snapshots_send, List.append_nil, hs.length_snapshots, handoffs_append]
    simp [handoffs, hnot]
  case pauses =>
    intro before slot ticket after heq hkept
    exact absurd (hs.released hfree (hbefore heq).choose_spec) hkept
  case paused =>
    intro ticket hawaits
    cases hfree.symm.trans hawaits

/-- **Handling one more request**, which happens only while no ticket is awaited. -/
theorem Follows.handle (hs : Follows c s handled effects) (hfree : s.awaiting = none)
    (h : s.handle r = .ok (s', out)) : Follows c s' (handled ++ [r]) (effects ++ out) := by
  rcases handle_cases h with ⟨slot, ticket, votes, rfl, hvotes, rfl, rfl⟩ |
    ⟨hnot, acceptor, messages, rfl, rfl, hsame⟩
  · exact hs.handoff hfree hvotes ticket
  · exact hs.request hfree hnot (hsame { acceptor := s.acceptor } rfl)

theorem released_of_handle (h : s.handle r = .ok (s', out)) : s'.released = s.released := by
  rcases handle_cases h with ⟨_, _, _, -, -, rfl, -⟩ | ⟨-, _, _, rfl, -⟩ <;> rfl

/-- Which requests wait is of no account. -/
theorem Follows.setMailbox (hs : Follows c s handled effects) (mailbox : List AcceptorRequest) :
    Follows c { s with mailbox } handled effects :=
  ⟨hs.plain, hs.answered, hs.length_snapshots, hs.pauses, hs.paused⟩

/-- Requests are handled up to one after which a ticket is awaited. -/
theorem Follows.drain (hs : Follows c s handled effects) (h : s.drain rest = .ok (s', out)) :
    ∃ done, rest = done ++ s'.mailbox ∧ Follows c s' (handled ++ done) (effects ++ out) ∧
      s'.released = s.released ∧ (s'.awaiting = none → s'.mailbox = []) := by
  induction rest generalizing s handled effects out with
  | nil =>
    cases h
    refine ⟨[], rfl, ?_, rfl, fun _ => rfl⟩
    rw [List.append_nil, List.append_nil]
    exact hs.setMailbox []
  | cons r rest ih =>
    unfold AcceptorService.drain at h
    split at h
    · rename_i hwaits
      cases h
      refine ⟨[], rfl, ?_, rfl, fun hnone => ?_⟩
      · rw [List.append_nil, List.append_nil]
        exact hs.setMailbox (r :: rest)
      · rw [hnone] at hwaits
        cases hwaits
    · rename_i hfree
      obtain ⟨⟨s₁, first⟩, hhandle, hrest⟩ := Checked.bind_eq_ok_iff.mp h
      obtain ⟨⟨s₂, others⟩, hdrain, hret⟩ := Checked.bind_eq_ok_iff.mp hrest
      cases hret
      have hs₁ := hs.handle (by simpa using hfree) hhandle
      obtain ⟨done, hdone, hs₂, hreleased, hempty⟩ := ih hs₁ hdrain
      refine ⟨r :: done, by rw [hdone]; rfl, ?_, hreleased.trans (released_of_handle hhandle), hempty⟩
      rwa [List.append_assoc, List.append_assoc] at hs₂

/-- A ticket is released that is not awaited. -/
theorem Follows.release_other (hs : Follows c s handled effects) {ticket : Nat}
    (hother : s.awaiting ≠ some ticket) :
    Follows c { s with released := ticket :: s.released } handled effects where
  plain := hs.plain
  answered := hs.answered
  length_snapshots := hs.length_snapshots
  pauses before slot ticket' after heq hkept :=
    hs.pauses before slot ticket' after heq fun hmem => hkept (List.mem_cons_of_mem _ hmem)
  paused ticket' hawaits := by
    obtain ⟨hkept, hlast⟩ := hs.paused ticket' hawaits
    refine ⟨fun hmem => ?_, hlast⟩
    rcases List.mem_cons.mp hmem with rfl | hmem
    · exact hother hawaits
    · exact hkept hmem

/-- The ticket is released that is awaited. -/
theorem Follows.release_awaited (hs : Follows c s handled effects) {ticket : Nat}
    (hawaits : s.awaiting = some ticket) :
    Follows c { s with awaiting := none, released := ticket :: s.released } handled effects where
  plain := hs.plain
  answered := hs.answered
  length_snapshots := hs.length_snapshots
  pauses before slot ticket' after heq hkept := by
    obtain ⟨hnot, hkept⟩ : ticket' ≠ ticket ∧ ticket' ∉ s.released := by simpa using hkept
    have hsame := (hs.pauses before slot ticket' after heq hkept).2
    exact absurd (Option.some.inj (hsame.symm.trans hawaits)) hnot
  paused ticket' hnone := by cases hnone

/-! ### Runs -/

variable {x : Input}

/-- **What an input does**: requests are handled in the order of arrival, and those that are not handled
wait. -/
theorem Follows.step (hs : Follows c s handled effects) (h : s.step x = .ok (s', out))
    (hempty : s.awaiting = none → s.mailbox = []) :
    ∃ done, s.mailbox ++ x.request?.toList = done ++ s'.mailbox ∧
      Follows c s' (handled ++ done) (effects ++ out) ∧
      (s'.awaiting = none → s'.mailbox = []) ∧
      ∀ ticket, ticket ∈ s'.released ↔ ticket ∈ s.released ∨ x = .release ticket := by
  cases x with
  | arrive request =>
    obtain ⟨done, hdone, hs', hreleased, hempty'⟩ := hs.drain h
    exact ⟨done, hdone, hs', hempty', by simp [hreleased]⟩
  | release ticket =>
    unfold AcceptorService.step AcceptorService.release at h
    dsimp only at h
    split at h
    · rename_i hawaits
      obtain ⟨done, hdone, hs', hreleased, hempty'⟩ := (hs.release_awaited hawaits).drain h
      refine ⟨done, by simpa [Input.request?] using hdone, hs', hempty', fun ticket' => ?_⟩
      rw [hreleased, List.mem_cons, or_comm, Input.release.injEq, eq_comm (a := ticket')]
    · rename_i hother
      cases h
      refine ⟨[], by simp [Input.request?], ?_, hempty, fun ticket' => ?_⟩
      · rw [List.append_nil, List.append_nil]
        exact hs.release_other hother
      · rw [List.mem_cons, or_comm, Input.release.injEq, eq_comm (a := ticket')]

theorem follows_of_runs (h : Runs step (start c) s past) : ∃ handled,
    arrivals past = handled ++ s.mailbox ∧ Follows c s handled (effectsIn past) ∧
      (s.awaiting = none → s.mailbox = []) ∧ ∀ ticket, ticket ∈ s.released ↔ Released past ticket := by
  induction h with
  | nil => exact ⟨[], rfl, follows_start c, fun _ => rfl, by simp [start, Released]⟩
  | @step s s' x out ts _ act_eq ih =>
    obtain ⟨handled, harrived, hs, hempty, hreleased⟩ := ih
    obtain ⟨done, hdone, hs', hempty', hreleased'⟩ := hs.step act_eq hempty
    refine ⟨handled ++ done, ?_, ?_, hempty', fun ticket => ?_⟩
    · rw [arrivals_append, harrived, List.append_assoc, List.append_assoc, ← hdone, arrivals_singleton]
    · rw [effectsIn_append]
      simpa [effectsIn] using hs'
    · rw [hreleased', hreleased]
      simp [Released, eq_comm]

/-! ### Failures -/

theorem exists_handle (hb : b < Word.size) (hstop : s.acceptor.window.stop ≤ b) (hr : r.Within b) :
    ∃ s' out, s.handle r = .ok (s', out) ∧ s'.acceptor.window.stop ≤ b := by
  cases hinput : r.roleInput with
  | some i =>
    have hi := AcceptorRequest.within_of_roleInput hinput hr
    obtain ⟨acceptor, messages, hact⟩ := Acceptor.exists_act hb hstop hi
    refine ⟨{ s with acceptor }, messages.map .send, ?_, Acceptor.stop_le_of_act hstop hi hact⟩
    rw [handle_of_roleInput hinput, hact]
    rfl
  | none =>
    cases r with
    | message m =>
      cases m with
      | prepare => cases hinput
      | accept => cases hinput
      | _ => exact ⟨s, [], rfl, hstop⟩
    | handoff slot ticket =>
      obtain ⟨votes, hvotes⟩ := Acceptor.exists_votesAbove (Nat.lt_of_le_of_lt hr hb)
        (hstop.trans_lt hb)
      exact ⟨_, _, Checked.bind_eq_ok_iff.mpr ⟨votes, hvotes, rfl⟩, hstop⟩
    | setEpochs => cases hinput
    | install => cases hinput
    | raiseLow => cases hinput

theorem exists_drain (hb : b < Word.size) (hstop : s.acceptor.window.stop ≤ b)
    (hrest : ∀ r ∈ rest, r.Within b) :
    ∃ s' out, s.drain rest = .ok (s', out) ∧ s'.acceptor.window.stop ≤ b := by
  induction rest generalizing s with
  | nil => exact ⟨_, _, rfl, hstop⟩
  | cons r rest ih =>
    obtain ⟨hr, hrest⟩ := List.forall_mem_cons.mp hrest
    unfold drain
    split
    · exact ⟨_, _, rfl, hstop⟩
    · obtain ⟨s₁, first, hhandle, hstop₁⟩ := exists_handle hb hstop hr
      obtain ⟨s', others, hdrain, hstop'⟩ := ih hstop₁ hrest
      exact ⟨s', first ++ others,
        Checked.bind_eq_ok_iff.mpr ⟨_, hhandle, Checked.bind_eq_ok_iff.mpr ⟨_, hdrain, rfl⟩⟩, hstop'⟩

/-- What an input is about are slots below `b`. -/
def Input.Within (b : Nat) : Input → Prop
  | .arrive request => request.Within b
  | .release _ => True

instance (b : Nat) (x : Input) : Decidable (x.Within b) := by
  unfold Input.Within
  split <;> infer_instance

theorem exists_step (hb : b < Word.size) (hstop : s.acceptor.window.stop ≤ b)
    (hmailbox : ∀ r ∈ s.mailbox, r.Within b) (hx : x.Within b) :
    ∃ s' out, s.step x = .ok (s', out) ∧ s'.acceptor.window.stop ≤ b := by
  cases x with
  | arrive request =>
    exact exists_drain hb hstop (List.forall_mem_append.mpr ⟨hmailbox, by simpa [Input.Within] using hx⟩)
  | release ticket =>
    unfold step release
    dsimp only
    split
    · exact exists_drain hb hstop hmailbox
    · exact ⟨_, _, rfl, hstop⟩

/-- What waits has arrived. -/
theorem within_of_mem_mailbox (h : Runs step (start c) s past)
    (hpast : ∀ t ∈ past, t.input.Within b) : ∀ r ∈ s.mailbox, r.Within b := by
  obtain ⟨handled, harrived, -⟩ := follows_of_runs h
  intro r hr
  have hmem : r ∈ arrivals past := harrived ▸ List.mem_append_right _ hr
  obtain ⟨t, ht, hinput⟩ := List.mem_filterMap.mp hmem
  have hwithin := hpast t ht
  cases heq : t.input with
  | arrive request =>
    rw [heq] at hinput hwithin
    cases hinput
    exact hwithin
  | release ticket =>
    rw [heq] at hinput
    cases hinput

theorem stop_le_of_runs (h : Runs step (start c) s past) (hb : b < Word.size) (hone : 1 ≤ b)
    (hpast : ∀ t ∈ past, t.input.Within b) : s.acceptor.window.stop ≤ b := by
  induction h with
  | nil => exact hone
  | step run act_eq ih =>
    obtain ⟨hbefore, hlast⟩ := List.forall_mem_append.mp hpast
    obtain ⟨s', out, hstep, hstop⟩ := exists_step hb (ih hbefore) (within_of_mem_mailbox run hbefore)
      (hlast _ List.mem_cons_self)
    cases hstep.symm.trans act_eq
    exact hstop

/-! ### Transparency -/

/-- A request that was answered was handled. -/
theorem Follows.exists_of_lt (hs : Follows c s handled effects) {slot ticket : Nat}
    {after : List AcceptorRequest} (heq : handled ++ rest = before ++ .handoff slot ticket :: after)
    (hlt : handoffs before < (snapshots effects).length) :
    ∃ after', handled = before ++ .handoff slot ticket :: after' ∧ after = after' ++ rest := by
  rw [hs.length_snapshots] at hlt
  rcases List.append_eq_append_iff.mp heq with ⟨more, rfl, -⟩ | ⟨more, rfl, hmore⟩
  · rw [handoffs_append] at hlt
    omega
  · cases more with
    | nil => simp at hlt
    | cons r after' =>
      rw [List.cons_append] at hmore
      obtain ⟨rfl, rfl⟩ := List.cons.inj hmore
      exact ⟨after', rfl, rfl⟩

/-- A request that was answered and not released is the last one that was handled. -/
theorem Follows.paused_at (hs : Follows c s handled effects) {slot ticket : Nat}
    {after : List AcceptorRequest} (heq : handled ++ rest = before ++ .handoff slot ticket :: after)
    (hlt : handoffs before < (snapshots effects).length) (hkept : ticket ∉ s.released) :
    (∃ past, PlainRun c before s.acceptor past ∧ sent (effectsIn past) = sent effects) ∧
      (∃ earlier votes, effects = earlier ++ [.snapshot votes]) ∧
      (snapshots effects).length = handoffs before + 1 ∧ rest = after := by
  obtain ⟨after', rfl, rfl⟩ := hs.exists_of_lt heq hlt
  obtain ⟨rfl, hawaits⟩ := hs.pauses before slot ticket after' rfl hkept
  obtain ⟨past, hplain, hsent⟩ := hs.plain
  refine ⟨⟨past, plainRun_handoff_iff.mp hplain, hsent⟩, (hs.paused ticket hawaits).2.2, ?_, rfl⟩
  rw [hs.length_snapshots, handoffs_append]
  rfl

/-- **A pause is transparent**, whatever arrives at a running acceptor and whenever tickets are released.

The answer to a handoff, once it is given, holds the votes of the run in which exactly the requests before
it arrive, without the handoffs among them. As long as a handoff is answered and its ticket not released, the
acceptor is as it is after that run and has sent what is sent in it; the answer is the last thing that it
did, no later handoff is answered, and all later requests wait. When the tickets of all handoffs that arrived
are released, all of them are answered and nothing waits; the acceptor is as it is after the run of all
requests without the handoffs, and has sent the same messages in the same order.

As long as everything is about slots below the last one that fits in a word, the acceptor takes the next
input, whatever it is; the count of the votes that a snapshot brings, which is for people and not kept
(`Acceptor.takeOver`), is set aside. -/
theorem transparent_pauses (h : Runs step (start c) s past) :
    (∀ before slot ticket after, arrivals past = before ++ .handoff slot ticket :: after →
      (∀ votes, (snapshots (effectsIn past))[handoffs before]? = some votes →
        ∃ a past', PlainRun c before a past' ∧ a.votesAbove slot = .ok votes) ∧
      (handoffs before < (snapshots (effectsIn past)).length → ¬ Released past ticket →
        (∃ past', PlainRun c before s.acceptor past' ∧
          sent (effectsIn past') = sent (effectsIn past)) ∧
        (∃ earlier votes, effectsIn past = earlier ++ [.snapshot votes]) ∧
        (snapshots (effectsIn past)).length = handoffs before + 1 ∧ s.mailbox = after)) ∧
    ((∀ slot ticket, .handoff slot ticket ∈ arrivals past → Released past ticket) →
      s.mailbox = [] ∧ (snapshots (effectsIn past)).length = handoffs (arrivals past) ∧
      ∃ past', PlainRun c (arrivals past) s.acceptor past' ∧
        sent (effectsIn past') = sent (effectsIn past)) ∧
    ((∀ t ∈ past, t.input.Within Word.top) → ∀ x : Input, x.Within Word.top →
      ∃ s' out, s.step x = .ok (s', out)) := by
  obtain ⟨handled, harrived, hs, hempty, hreleased⟩ := follows_of_runs h
  refine ⟨fun before slot ticket after heq => ⟨fun votes hvotes => ?_, fun hlt hkept => ?_⟩,
    fun hall => ?_, fun hpast x hx => ?_⟩
  · obtain ⟨hlt, -⟩ := List.getElem?_eq_some_iff.mp hvotes
    obtain ⟨after', hhandled, -⟩ := hs.exists_of_lt (harrived.symm.trans heq) hlt
    obtain ⟨a, past', votes', hplain, hvotes', hanswer⟩ :=
      hs.answered before slot ticket after' hhandled
    obtain rfl := Option.some.inj (hanswer.symm.trans hvotes)
    exact ⟨a, past', hplain, hvotes'⟩
  · exact hs.paused_at (harrived.symm.trans heq) hlt (mt (hreleased ticket).mp hkept)
  · have hfree : s.awaiting = none := by
      rw [Option.eq_none_iff_forall_ne_some]
      intro ticket hawaits
      obtain ⟨hkept, ⟨before, slot, rfl⟩, -⟩ := hs.paused ticket hawaits
      exact hkept ((hreleased ticket).mpr (hall slot ticket (by simp [harrived])))
    have hmailbox := hempty hfree
    rw [hmailbox, List.append_nil] at harrived
    rw [harrived]
    exact ⟨hmailbox, hs.length_snapshots, hs.plain⟩
  · have hstop := stop_le_of_runs h (by decide) (by decide) hpast
    obtain ⟨s', out, hstep, -⟩ := exists_step (by decide) hstop (within_of_mem_mailbox h hpast) hx
    exact ⟨s', out, hstep⟩

/-- The votes are asked for twice. While the first ticket is kept, the acceptor has voted for slot 1 only,
and a vote, the second handoff and one more vote wait. The second ticket is released first. Once both are,
all three are handled: the second answer holds the votes for slots 1 and 2, and all votes are sent. -/
theorem transparent_pauses_of_nested_handoffs : ∃ s past s' later votes,
    Runs step (start {}) s past ∧ Runs step s s' later ∧
    s.mailbox.length = 3 ∧ (snapshots (effectsIn past)).length = 1 ∧
    (∃ earlier votes, effectsIn past = earlier ++ [.snapshot votes]) ∧
    (snapshots (effectsIn (past ++ later)))[1]? = some votes ∧ votes.votes.map Report.slot = [1, 2] ∧
    (∃ before after a past', arrivals (past ++ later) = before ++ .handoff 0 1 :: after ∧
      PlainRun {} before a past' ∧ a.votesAbove 0 = .ok votes) ∧
    s'.mailbox = [] ∧ (sent (effectsIn (past ++ later))).length = 3 ∧
    (∃ past', PlainRun {} (arrivals (past ++ later)) s'.acceptor past' ∧
      sent (effectsIn past') = sent (effectsIn (past ++ later))) ∧
    ∃ s'' out, s'.step (.arrive (.handoff 3 2)) = .ok (s'', out) := by
  let vote (slot : Nat) : AcceptorRequest :=
    .message (.accept ⟨0, ⟨1, 0⟩, slot, .appBatch [65], .zeros 3⟩)
  obtain ⟨s', past, h, hpaused, hkept, hone, hall, hslots, hthree, hreleased, hwithin⟩ :=
    Runs.exists_of_replay step (start {})
      [.arrive (vote 1), .arrive (.handoff 0 0), .arrive (vote 2), .arrive (.handoff 0 1),
        .arrive (vote 3), .release 1, .release 0]
      (fun _ past =>
        arrivals (past.take 5) = [vote 1] ++ .handoff 0 0 :: [vote 2, .handoff 0 1, vote 3] ∧
        ¬ Released (past.take 5) 0 ∧ (snapshots (effectsIn (past.take 5))).length = 1 ∧
        arrivals past = [vote 1, .handoff 0 0, vote 2] ++ .handoff 0 1 :: [vote 3] ∧
        (snapshots (effectsIn past))[1]?.map (fun votes => votes.votes.map Report.slot) = some [1, 2] ∧
        (sent (effectsIn past)).length = 3 ∧ (Released past 0 ∧ Released past 1) ∧
        ∀ t ∈ past, t.input.Within Word.top) (by decide +kernel)
  obtain ⟨votes, hvotes, hslots⟩ := Option.map_eq_some_iff.mp hslots
  obtain ⟨hanswers, hfinal, htakes⟩ := transparent_pauses h
  obtain ⟨a, past', hplain, hsame⟩ := (hanswers _ _ _ _ hall).1 votes hvotes
  obtain ⟨hempty, -, hplain'⟩ := hfinal fun slot ticket hmem => by
    rw [hall] at hmem
    have hsome : slot = 0 ∧ ticket = 0 ∨ slot = 0 ∧ ticket = 1 := by simpa [vote] using hmem
    rcases hsome with ⟨-, rfl⟩ | ⟨-, rfl⟩
    · exact hreleased.1
    · exact hreleased.2
  obtain ⟨s'', out, hstep⟩ := htakes hwithin (.arrive (.handoff 3 2)) (by decide)
  rw [← List.take_append_drop 5 past] at h hall hvotes hthree hplain'
  obtain ⟨s, hrun, hrest⟩ := h.exists_append
  obtain ⟨-, hlast, -, hmailbox⟩ :=
    ((transparent_pauses hrun).1 _ _ _ _ hpaused).2 (hone ▸ Nat.one_pos) hkept
  exact ⟨s, past.take 5, s', past.drop 5, votes, hrun, hrest, by rw [hmailbox]; rfl, hone, hlast, hvotes,
    hslots, ⟨_, _, a, past', hall, hplain, hsame⟩, hempty, hthree, hplain', s'', out, hstep⟩

/-- **A handoff can make an acceptor fail.** Two votes are asked for, and both are cast. If in between the
acceptor is asked for its votes above the last slot that fits in a word, of which there are none, it gives no
answer, and it does not cast the second vote. -/
theorem handoff_may_fail :
    let vote (slot : Nat) : Input :=
      .arrive (.message (.accept ⟨0, ⟨1, 0⟩, slot, .appBatch [65], .zeros 3⟩))
    let cast (slot : Nat) : List Effect :=
      [.send (.broadcast (.learn ⟨0, slot, ⟨1, 0⟩, .appBatch [65], .zeros 3⟩))]
    answers step (start {}) [vote 1, vote 2] = [.ok (cast 1), .ok (cast 2)] ∧
      answers step (start {}) [vote 1, .arrive (.handoff Word.top 0), vote 2] =
        [.ok (cast 1), .error .addition] := by
  decide +kernel

end AcceptorService

end ReplicatedLog
