import ReplicatedLog.Cluster
import ReplicatedLog.Proofs.Agreement
import ReplicatedLog.Proofs.Replicas
import ReplicatedLog.Proofs.Validity

/-!
# Clusters in worlds

A cluster of replicas that exchange messages knows neither what was sent before nor what was delivered.
A world does: it keeps the messages that are in flight, and those that are lost. So every run of a
cluster, in which messages are delivered in any order, lost and doubled, is a run of a world that
holds the same replicas (`Cluster.exists_world`), step by step (`Mirrors.step`), and what is known of
worlds holds of clusters:

* Each replica delivers the slots one after the other (`Cluster.delivered_in_order`).
* It delivers no-ops, and values that were submitted (`Cluster.submitted_of_delivered`).
* Replicas deliver the same value for a slot, as long as no acceptor has given up a slot
  (`Cluster.delivered_agree`).

Messages are encoded on their way. They arrive as they were sent because their numbers fit in words, if
those that are brought in do (`Reachable.inWords`).
-/

namespace ReplicatedLog

/-- What arrives is what was sent, if it arrives. -/
theorem Wire.eq_of_carry {e e' : Envelope} (hsource : e.source < Word.size)
    (hmessage : e.message.InWords) (h : carry e = .ok e') : e' = e := by
  by_cases hsize : (writeEnvelope e).length ≤ maxMessageSize
  · rw [carry_eq_ok hsource hmessage hsize] at h
    exact (Except.ok.inj h).symm
  · have hencode : encode e = .error (.messageTooLarge (writeEnvelope e).length) :=
      if_pos (Nat.lt_of_not_le hsize)
    rw [carry, hencode] at h
    cases h

namespace Cluster

open Function

/-! ### Steps -/

/-- What can happen to a cluster. -/
inductive Input where
  /-- A message in flight arrives. -/
  | deliver (i : Nat)
  /-- A message in flight is lost. -/
  | drop (i : Nat)
  /-- A message in flight is doubled. -/
  | duplicate (i : Nat)
  /-- A replica is cut off, or connected again. -/
  | isolate (replica : Nat) (cutOff : Bool)
  /-- A replica trusts somebody to lead. -/
  | trust (replica leader : Nat)
  /-- A client submits a value. -/
  | submit (replica : Nat) (value : Value)
  /-- A replica takes a new view of the membership. -/
  | setEpochs (replica : Nat) (epochs : EpochVector)
  /-- Phase one took too long. -/
  | retry (replica : Nat)
  /-- A replica checks for progress. -/
  | checkProgress (replica : Nat)
  /-- A replica asks again for missing slots. -/
  | askAgain (replica : Nat)
  /-- An acceptor hands its votes to another one. -/
  | handoff (source target slot : Nat)
  /-- An acceptor gives up the slots below a mark. -/
  | raiseLow (replica slot : Nat)
  deriving DecidableEq, Repr

/-- The cluster after an input, and what its replicas deliver. -/
def step (k : Cluster) : Input → Checked (Cluster × List Delivered)
  | .deliver i => k.deliver i
  | .drop i => .ok (k.drop i, [])
  | .duplicate i => .ok (k.duplicate i, [])
  | .isolate replica cutOff => .ok (k.isolate replica cutOff, [])
  | .trust replica leader => do return (← k.trust replica leader, [])
  | .submit replica value => do
    let (k, _) ← k.submit replica value
    return (k, [])
  | .setEpochs replica epochs => .ok (k.setEpochs replica epochs, [])
  | .retry replica => do return (← k.retry replica, [])
  | .checkProgress replica => do return (← k.checkProgress replica, [])
  | .askAgain replica => do return (← k.askAgain replica, [])
  | .handoff source target slot => do
    let (k, _) ← k.handoff source target slot
    return (k, [])
  | .raiseLow replica slot => .ok (k.raiseLow replica slot, [])

/-- What is brought in fits in words. If `ordinary`, the membership does not change either. -/
def Input.Usual (ordinary : Prop) : Input → Prop
  | .submit _ value => value.InWords
  | .setEpochs _ epochs => epochs.InWords
  | .handoff _ _ _ => ¬ ordinary
  | .raiseLow _ _ => ¬ ordinary
  | _ => True

/-- What one replica delivered, in order. -/
def deliveredAt (i : Nat) (out : List Delivered) : List (Nat × Value) :=
  out.filterMap fun d => if d.replica = i then some (d.slot, d.value) else none

theorem deliveredAt_append (i : Nat) (out out' : List Delivered) :
    deliveredAt i (out ++ out') = deliveredAt i out ++ deliveredAt i out' := List.filterMap_append

theorem deliveredAt_self (i : Nat) (decided : List (Nat × Value)) :
    deliveredAt i (decided.map fun (slot, value) => ⟨i, slot, value⟩) = decided := by
  simp [deliveredAt, List.filterMap_map]

theorem deliveredAt_of_ne {i j : Nat} (hne : j ≠ i) (decided : List (Nat × Value)) :
    deliveredAt j (decided.map fun (slot, value) => ⟨i, slot, value⟩) = [] := by
  simp [deliveredAt, Ne.symm hne]

/-! ### The same replicas -/

variable {c : ReplicaSettings} {ordinary : Prop} {k k' : Cluster} {w w' : World} {i : Nat}
  {r r' : Replica} {x : Input} {out : List Delivered}

/-- The world holds the replicas of the cluster, and the messages in flight were sent in it. -/
structure Mirrors (c : ReplicaSettings) (k : Cluster) (w : World) : Prop where
  /-- There are as many replicas. -/
  size_eq : k.replicas.size = c.replicas
  /-- They are in the same state. -/
  holds : ∀ i r, k.replicas[i]? = some r → w.Holds i r
  /-- What is in flight was sent by a replica, and may arrive. -/
  arrives : ∀ t ∈ k.pool, t.source < c.replicas ∧ w.Arrives t.target t.message

theorem Mirrors.lt (h : Mirrors c k w) (hr : k.replicas[i]? = some r) : i < c.replicas := by
  obtain ⟨hlt, -⟩ := Array.getElem?_eq_some_iff.mp hr
  exact h.size_eq ▸ hlt

theorem mirrors_start (c : ReplicaSettings) :
    Mirrors c (Cluster.start c.roles c.replicas) (World.start c) where
  size_eq := by simp [start]
  holds i r hr := by
    obtain ⟨_, hget, rfl⟩ : ∃ j, (Array.range c.replicas)[i]? = some j ∧
        Replica.start c.roles j (.zeros c.replicas) = r := by simpa [start] using hr
    obtain ⟨_, rfl⟩ := Array.getElem?_eq_some_iff.mp hget
    rw [Array.getElem_range]
    exact World.holds_start c i
  arrives t ht := (List.not_mem_nil ht).elim

/-- Messages in flight are lost or doubled. -/
theorem Mirrors.congr (h : Mirrors c k w) (hreplicas : k'.replicas = k.replicas)
    (hpool : ∀ t ∈ k'.pool, t ∈ k.pool) : Mirrors c k' w where
  size_eq := hreplicas ▸ h.size_eq
  holds := hreplicas ▸ h.holds
  arrives t ht := h.arrives t (hpool t ht)

/-- One replica changes, and what it sends sets out. -/
theorem Mirrors.become (h : Mirrors c k w) {d : Delivery} {taken : List Value}
    (hr : k.replicas[i]? = some r) (hsize : k'.replicas.size = k.replicas.size)
    (hreplicas : ∀ j, k'.replicas[j]? = if j = i then some r' else k.replicas[j]?)
    (hpool : ∀ t ∈ k'.pool, t ∈ k.pool ∨
      t.source = i ∧ ∃ o ∈ d.outbound, o.message = t.message ∧ o.IsFor t.target) :
    Mirrors c k' (w.become i r' d taken) where
  size_eq := hsize.trans h.size_eq
  holds j r₁ hr₁ := by
    rw [hreplicas] at hr₁
    split at hr₁
    · rename_i heq
      obtain rfl := Option.some.inj hr₁
      exact heq ▸ (h.holds i r hr).become_self
    · rename_i hne
      exact (h.holds j r₁ hr₁).become_of_ne hne
  arrives t ht := by
    rcases hpool t ht with hold | ⟨rfl, o, ho, hmessage, htarget⟩
    · obtain ⟨hsource, o, ho, harrives⟩ := h.arrives t hold
      exact ⟨hsource, o, List.mem_append_left _ ho, harrives⟩
    · exact ⟨h.lt hr, o, List.mem_append_right _ ho, hmessage, htarget⟩

/-- What sets out was sent to the replica that it is for. -/
theorem exists_of_mem_transits {t : Transit} {o : Outgoing} (h : t ∈ k.transits i o) :
    t.source = i ∧ o.message = t.message ∧ o.IsFor t.target := by
  cases o with
  | unicast target m =>
    unfold transits at h
    dsimp only at h
    split at h
    · obtain rfl := List.mem_singleton.mp h
      exact ⟨rfl, rfl, rfl⟩
    · exact (List.not_mem_nil h).elim
  | broadcast m =>
    obtain ⟨target, -, rfl⟩ := List.mem_map.mp h
    exact ⟨rfl, rfl, trivial⟩

/-- What a step delivers, and the values that it takes, show in the world. -/
structure Shows (x : Input) (out : List Delivered) (w w' : World) : Prop where
  /-- What is delivered. -/
  logs : ∀ i, w'.logs i = w.logs i ++ deliveredAt i out
  /-- What is taken. -/
  submitted : ∀ i, ∀ v ∈ w'.submitted i, v ∈ w.submitted i ∨ x = .submit i v

theorem shows_nothing (x : Input) (w : World) : Shows x [] w w :=
  ⟨fun _ => (List.append_nil _).symm, fun _ _ hv => Or.inl hv⟩

theorem shows_become {d : Delivery} {taken : List Value} (w : World) (r' : Replica)
    (htaken : ∀ v ∈ taken, x = .submit i v) :
    Shows x (d.delivered.map fun (slot, value) => ⟨i, slot, value⟩) w (w.become i r' d taken) where
  logs := by
    refine (forall_update_iff w.logs fun j log => log = w.logs j ++
      deliveredAt j (d.delivered.map fun (slot, value) => ⟨i, slot, value⟩)).mpr ⟨?_, fun j hne => ?_⟩
    · rw [deliveredAt_self]
    · rw [deliveredAt_of_ne hne, List.append_nil]
  submitted := by
    refine (forall_update_iff w.submitted fun j vs => ∀ v ∈ vs, v ∈ w.submitted j ∨
      x = .submit j v).mpr ⟨fun v hv => ?_, fun j _ v hv => Or.inl hv⟩
    exact (List.mem_append.mp hv).imp_right (htaken v)

/-! ### Steps of a cluster in a world -/

/-- After an input in which the replicas delivered `out`, some world mirrors the cluster, and shows what
was delivered and taken since the world `w`. -/
abbrev Matched (c : ReplicaSettings) (ordinary : Prop) (x : Input) (w : World) (k : Cluster)
    (out : List Delivered) : Prop :=
  ∃ w', Reachable c (fun _ e => e.Usual ordinary) w' ∧ Mirrors c k w' ∧ Shows x out w w'

/-- Something happens to one replica: in a world it becomes what it becomes in the cluster. -/
theorem Mirrors.act {α : Type} {none a : α} {event : Replica → Checked (Replica × List Outgoing × α)}
    (told : α → List Delivered) (hnone : told none = []) (h : Mirrors c k w)
    (hw : Reachable c (fun _ e => e.Usual ordinary) w)
    (hact : k.act i none event = .ok (k', a))
    (hevent : ∀ r r' sent a, w.Holds i r → i < c.replicas → event r = .ok (r', sent, a) →
      ∃ d taken, d.outbound = sent ∧
        Reachable c (fun _ e => e.Usual ordinary) (w.become i r' d taken) ∧
        (∀ v ∈ taken, x = .submit i v) ∧
        told a = d.delivered.map fun (slot, value) => ⟨i, slot, value⟩) :
    Matched c ordinary x w k' (told a) := by
  unfold Cluster.act at hact
  split at hact
  · cases hact
    exact ⟨w, hw, h, hnone ▸ shows_nothing x w⟩
  · rename_i r hr
    obtain ⟨⟨r', sent, a'⟩, hr', hret⟩ := Checked.bind_eq_ok_iff.mp hact
    cases hret
    obtain ⟨d, taken, rfl, hbecome, htaken, htold⟩ := hevent r r' sent a (h.holds i r hr) (h.lt hr) hr'
    refine ⟨_, hbecome, h.become hr ?_ (fun j => ?_) fun t ht => ?_, htold ▸ shows_become w r' htaken⟩
    · exact Array.size_setIfInBounds
    · rw [send, Array.getElem?_setIfInBounds, if_pos (Array.getElem?_eq_some_iff.mp hr).1]
      split
      · rename_i heq
        rw [if_pos heq.symm]
      · rename_i hne
        rw [if_neg (Ne.symm hne)]
    · refine (List.mem_append.mp ht).imp_right fun ht => ?_
      obtain ⟨o, ho, ht⟩ := List.mem_flatMap.mp ht
      obtain ⟨hsource, harrives⟩ := exists_of_mem_transits ht
      exact ⟨hsource, o, ho, harrives⟩

/-- A replica says something on its own. -/
theorem Mirrors.tell (h : Mirrors c k w) (hw : Reachable c (fun _ e => e.Usual ordinary) w) (x : Input)
    {event : Replica → Checked (Replica × List Outgoing)}
    (hevent : ∀ r r' sent, w.Holds i r → i < c.replicas → event r = .ok (r', sent) →
      Reachable c (fun _ e => e.Usual ordinary) (w.become i r' { outbound := sent } []))
    (hstep : (do
      let (k, _) ← k.act i () fun r => do
        let (r, out) ← event r
        return (r, out, ())
      return k) = (.ok k' : Checked Cluster)) :
    Matched c ordinary x w k' [] := by
  obtain ⟨⟨k₁, _⟩, hact, hret⟩ := Checked.bind_eq_ok_iff.mp hstep
  cases hret
  refine h.act (fun _ => []) rfl hw hact fun r r' sent _ hholds hi hr => ?_
  obtain ⟨⟨r₁, sent₁⟩, hr₁, hret⟩ := Checked.bind_eq_ok_iff.mp hr
  cases hret
  exact ⟨_, [], rfl, hevent r r' sent hholds hi hr₁, by simp, rfl⟩

/-- A replica changes and says nothing. -/
theorem Mirrors.modify (h : Mirrors c k w) (hw : Reachable c (fun _ e => e.Usual ordinary) w) (x : Input)
    {change : Replica → Replica} (hchange : ∀ r, w.Holds i r → i < c.replicas →
      Reachable c (fun _ e => e.Usual ordinary) (w.become i (change r) {} [])) :
    Matched c ordinary x w { k with replicas := k.replicas.modify i change } [] := by
  cases hr : k.replicas[i]? with
  | none =>
    have hsame : k.replicas.modify i change = k.replicas := by
      refine Array.ext_getElem? fun j => ?_
      rw [Array.getElem?_modify]
      split
      · rename_i heq
        rw [← heq, hr, Option.map_none]
      · rfl
    exact ⟨w, hw, h.congr hsame fun _ ht => ht, shows_nothing x w⟩
  | some r =>
    have hnone : ∀ v ∈ ([] : List Value), x = .submit i v := by simp
    refine ⟨_, hchange r (h.holds i r hr) (h.lt hr), h.become hr ?_ (fun j => ?_) fun _ ht => Or.inl ht,
      shows_become (d := {}) w (change r) hnone⟩
    · exact Array.size_modify
    · rw [Array.getElem?_modify]
      split
      · rename_i heq
        rw [if_pos heq.symm, ← heq, hr, Option.map_some]
      · rename_i hne
        rw [if_neg (Ne.symm hne)]

/-- A message that arrives is the one that was sent. -/
theorem Mirrors.deliver (h : Mirrors c k w) (hw : Reachable c (fun _ e => e.Usual ordinary) w)
    (hc : c.InWords) (x : Input) {n : Nat} (hstep : k.deliver n = .ok (k', out)) :
    Matched c ordinary x w k' out := by
  have hdropped : Mirrors c (k.drop n) w := h.congr rfl fun _ ht => List.mem_of_mem_eraseIdx ht
  unfold Cluster.deliver at hstep
  split at hstep
  · cases hstep
    exact ⟨w, hw, h, shows_nothing x w⟩
  rename_i t ht
  obtain ⟨hsource, harrives⟩ := h.arrives t (List.mem_of_getElem? ht)
  dsimp only at hstep
  split at hstep
  · cases hstep
    exact ⟨w, hw, hdropped, shows_nothing x w⟩
  rename_i e hcarry
  have hwords := hw.inWords hc (fun _ _ he => he.1) (World.said_of_arrives harrives)
  obtain rfl := Wire.eq_of_carry (hsource.trans hc.1) hwords hcarry
  refine hdropped.act (fun out => out) rfl hw hstep fun r r' sent out hholds hi hr => ?_
  obtain ⟨⟨r₁, d⟩, hreceive, hret⟩ := Checked.bind_eq_ok_iff.mp hr
  cases hret
  exact ⟨d, [], rfl, hw.receive hholds hi harrives hreceive, by simp, rfl⟩

/-- A client submits a value: the proposer takes it, or refuses it. -/
theorem Mirrors.submit (h : Mirrors c k w) (hw : Reachable c (fun _ e => e.Usual ordinary) w) {v : Value}
    (hv : v.InWords) {refused : Option Fault} (hstep : k.submit i v = .ok (k', refused)) :
    Matched c ordinary (.submit i v) w k' [] := by
  refine h.act (fun _ => []) rfl hw hstep fun r r' sent a hholds hi hr => ?_
  obtain ⟨⟨r₁, result⟩, hpropose, hr⟩ := Checked.bind_eq_ok_iff.mp hr
  cases result with
  | ok out =>
    cases hr
    exact ⟨{ outbound := sent }, [v], rfl, hw.submit hholds hi hv hpropose, by simp, rfl⟩
  | error fault =>
    cases hr
    exact ⟨{}, [], rfl, hw.refuse hholds hi hv hpropose, by simp, rfl⟩

/-- Votes are handed over and taken over. -/
theorem Mirrors.handoff (h : Mirrors c k w) (hw : Reachable c (fun _ e => e.Usual ordinary) w)
    (hchange : ¬ ordinary) (x : Input) {target slot : Nat} {s : Option Snapshot}
    (hstep : k.handoff i target slot = .ok (k', s)) :
    Matched c ordinary x w k' [] := by
  unfold Cluster.handoff at hstep
  split at hstep
  · cases hstep
    exact ⟨w, hw, h, shows_nothing x w⟩
  rename_i r hr
  obtain ⟨s', hvotes, hret⟩ := Checked.bind_eq_ok_iff.mp hstep
  cases hret
  have hhanded := hw.handOver (h.holds i r hr) (h.lt hr) hvotes
  have hsame : Mirrors c k { w with snapshots := w.snapshots ++ [s'] } :=
    ⟨h.size_eq, fun j r hr => ⟨(h.holds j r hr).1, (h.holds j r hr).2, (h.holds j r hr).3,
      (h.holds j r hr).4⟩, h.arrives⟩
  obtain ⟨w', hw', hk', hshows⟩ := hsame.modify hhanded x (i := target) fun r hholds hi =>
    hhanded.takeOver hholds hi hchange (List.mem_append_right _ List.mem_cons_self)
  exact ⟨w', hw', hk', ⟨hshows.logs, hshows.submitted⟩⟩

/-- **What a step does to a cluster, it does in a world** that mirrors the cluster. -/
theorem Mirrors.step (h : Mirrors c k w) (hw : Reachable c (fun _ e => e.Usual ordinary) w)
    (hc : c.InWords) (hx : x.Usual ordinary) (hstep : k.step x = .ok (k', out)) :
    Matched c ordinary x w k' out := by
  cases x with
  | deliver n => exact h.deliver hw hc _ hstep
  | drop n =>
    cases hstep
    exact ⟨w, hw, h.congr rfl fun _ ht => List.mem_of_mem_eraseIdx ht, shows_nothing _ w⟩
  | duplicate n =>
    cases hstep
    refine ⟨w, hw, h.congr rfl fun t ht => ?_, shows_nothing _ w⟩
    rcases List.mem_append.mp ht with ht | ht
    · exact ht
    · exact List.mem_of_getElem? (Option.mem_toList.mp ht)
  | isolate replica cutOff =>
    cases hstep
    exact ⟨w, hw, h.congr rfl fun _ ht => ht, shows_nothing _ w⟩
  | trust replica leader =>
    obtain ⟨k₁, htrust, hret⟩ := Checked.bind_eq_ok_iff.mp hstep
    cases hret
    exact h.tell hw _ (fun _ _ _ hholds hi hr => hw.trust hholds hi hr) htrust
  | submit replica value =>
    obtain ⟨⟨k₁, refused⟩, hsubmit, hret⟩ := Checked.bind_eq_ok_iff.mp hstep
    cases hret
    exact h.submit hw hx hsubmit
  | setEpochs replica epochs =>
    cases hstep
    exact h.modify hw _ fun _ hholds hi => hw.setEpochs hholds hi hx
  | retry replica =>
    obtain ⟨k₁, hretry, hret⟩ := Checked.bind_eq_ok_iff.mp hstep
    cases hret
    exact h.tell hw _ (fun _ _ _ hholds hi hr => hw.retry hholds hi hr) hretry
  | checkProgress replica =>
    obtain ⟨k₁, hcheck, hret⟩ := Checked.bind_eq_ok_iff.mp hstep
    cases hret
    exact h.tell hw _ (fun _ _ _ hholds hi hr => hw.checkProgress hholds hi hr) hcheck
  | askAgain replica =>
    obtain ⟨k₁, hask, hret⟩ := Checked.bind_eq_ok_iff.mp hstep
    cases hret
    exact h.tell hw _ (fun _ _ _ hholds hi hr => hw.askAgain hholds hi hr) hask
  | handoff source target slot =>
    obtain ⟨⟨k₁, s⟩, hhandoff, hret⟩ := Checked.bind_eq_ok_iff.mp hstep
    cases hret
    exact h.handoff hw hx _ hhandoff
  | raiseLow replica slot =>
    cases hstep
    exact h.modify hw _ fun _ hholds hi => hw.raiseLow hholds hi hx slot

/-! ### Runs of a cluster -/

/-- The past of a cluster. -/
abbrev Past := List (Turn Cluster Input (List Delivered))

/-- What the replicas delivered, in order. -/
def delivered (past : Past) : List Delivered := past.flatMap Turn.output

variable {past : Past}

/-- **Every run of a cluster is a run of a world** that holds the same replicas. Its learners delivered
what the replicas delivered, and its proposers took what was submitted. -/
theorem exists_world (h : Runs step (Cluster.start c.roles c.replicas) k past) (hc : c.InWords)
    (hpast : ∀ t ∈ past, t.input.Usual ordinary) :
    ∃ w, Reachable c (fun _ e => e.Usual ordinary) w ∧ Mirrors c k w ∧
      (∀ i, w.logs i = deliveredAt i (delivered past)) ∧
      ∀ i, ∀ v ∈ w.submitted i, ∃ t ∈ past, t.input = .submit i v := by
  induction h with
  | nil =>
    exact ⟨_, .start, mirrors_start c, fun _ => rfl, fun i v hv => (List.not_mem_nil hv).elim⟩
  | @step k k' x out past _ hstep ih =>
    obtain ⟨hbefore, hx⟩ := List.forall_mem_append.mp hpast
    obtain ⟨w, hw, hk, hlogs, hsubmitted⟩ := ih hbefore
    obtain ⟨w', hw', hk', hshows⟩ := hk.step hw hc (hx _ List.mem_cons_self) hstep
    refine ⟨w', hw', hk', fun i => ?_, fun i v hv => ?_⟩
    · rw [hshows.logs, hlogs, ← deliveredAt_append]
      simp [delivered]
    · rcases hshows.submitted i v hv with hv | hv
      · obtain ⟨t, ht, heq⟩ := hsubmitted i v hv
        exact ⟨t, List.mem_append_left _ ht, heq⟩
      · exact ⟨_, List.mem_append_right _ List.mem_cons_self, hv⟩

/-- **Each replica delivers all slots in order**, from the first one on, none twice. -/
theorem delivered_in_order (h : Runs step (Cluster.start c.roles c.replicas) k past) (hc : c.InWords)
    (hpast : ∀ t ∈ past, t.input.Usual ordinary) (i : Nat) :
    (deliveredAt i (delivered past)).map Prod.fst =
      List.range' 1 (deliveredAt i (delivered past)).length := by
  obtain ⟨w, hw, -, hlogs, -⟩ := exists_world h hc hpast
  rw [← hlogs]
  exact (hw.learner_recorded i).slots

/-- **What a replica delivers was submitted**, or is a no-op. -/
theorem submitted_of_delivered (h : Runs step (Cluster.start c.roles c.replicas) k past)
    (hc : c.InWords) (hpast : ∀ t ∈ past, t.input.Usual ordinary) {slot : Nat} {v : Value}
    (hv : (slot, v) ∈ deliveredAt i (delivered past)) :
    v = .noop ∨ ∃ j, ∃ t ∈ past, t.input = .submit j v := by
  obtain ⟨w, hw, -, hlogs, hsubmitted⟩ := exists_world h hc hpast
  rw [← hlogs] at hv
  exact (hw.valid_of_mem_logs hv).imp_right fun ⟨j, hj⟩ => ⟨j, hsubmitted j v hj⟩

/-- **Replicas agree** on what they deliver for a slot if the membership does not change and no acceptor
has given up a slot. -/
theorem delivered_agree (h : Runs step (Cluster.start c.roles c.replicas) k past) (hc : c.InWords)
    (hpast : ∀ t ∈ past, t.input.Usual True) (hlow : ∀ r ∈ k.replicas, r.acceptor.window.low ≤ 1)
    {i j slot : Nat} {v v' : Value} (hv : (slot, v) ∈ deliveredAt i (delivered past))
    (hv' : (slot, v') ∈ deliveredAt j (delivered past)) : v = v' := by
  obtain ⟨w, hw, hk, hlogs, -⟩ := exists_world h hc hpast
  have hordinary : Reachable c (fun _ e => e.Ordinary) w := hw.mono fun _ _ he => he.2 trivial
  rw [← hlogs] at hv hv'
  refine hordinary.eq_of_low_le_one (fun i hi => ?_) hv hv'
  have hlt : i < k.replicas.size := hk.size_eq ▸ hi
  rw [(hk.holds i _ (Array.getElem?_eq_getElem hlt)).acceptor_eq]
  exact hlow _ (Array.getElem_mem hlt)

/-- While the third replica is cut off, the other two deliver what was submitted to a leader that waits
for promises. -/
example : ∃ k past, Runs step (Cluster.start ({} : ReplicaSettings).roles 3) k past ∧
    (∀ r ∈ k.replicas, r.acceptor.window.low ≤ 1) ∧
      delivered past = [⟨0, 1, .appBatch [65]⟩, ⟨1, 1, .appBatch [65]⟩] :=
  Runs.exists_of_replay step _
    ([.isolate 2 true, .trust 0 0, .submit 0 (.appBatch [65])] ++ List.replicate 12 (.deliver 0))
    (fun k past => (∀ r ∈ k.replicas, r.acceptor.window.low ≤ 1) ∧
      delivered past = [⟨0, 1, .appBatch [65]⟩, ⟨1, 1, .appBatch [65]⟩]) (by decide +kernel)

/-- Delivering one message after another is a run of deliveries. -/
theorem runs_of_run {order : PoolOrder} {limit : Nat} (h : k.run order limit = .ok (k', out)) :
    ∃ past, Runs step k k' past ∧ delivered past = out ∧ ∀ t ∈ past, ∃ n, t.input = .deliver n := by
  induction limit generalizing k out with
  | zero =>
    cases h
    exact ⟨[], .nil, rfl, by simp⟩
  | succ limit ih =>
    unfold run at h
    split at h
    · cases h
      exact ⟨[], .nil, rfl, by simp⟩
    obtain ⟨⟨k₁, first⟩, hdeliver, h⟩ := Checked.bind_eq_ok_iff.mp h
    obtain ⟨⟨k₂, rest⟩, hrun, hret⟩ := Checked.bind_eq_ok_iff.mp h
    cases hret
    obtain ⟨past, hpast, hout, hinputs⟩ := ih hrun
    have hfirst : Runs step k k₁ [⟨k, .deliver (k.nextIndex order), k₁, first⟩] :=
      Runs.nil.step hdeliver
    refine ⟨_, hfirst.trans hpast, ?_, ?_⟩
    · simp [delivered, ← hout]
    · simpa using hinputs

end Cluster

end ReplicatedLog
