import ReplicatedLog.Fault
import ReplicatedLog.Mode

/-!
# Configuration

The settings of a replica and of a client, their default values, and which settings a replica can
run with.
-/

namespace ReplicatedLog

/-- The settings of a replica. Times are in milliseconds. -/
structure ReplicaSettings where
  /-- The replica. -/
  replica : Nat := 0
  /-- The number of replicas of the cluster. -/
  replicas : Nat := 3
  /-- How many slots the leader may have in flight beyond the decided ones. -/
  alpha : Nat := 3
  /-- After this time without a quorum of promises the leader tries a higher round. -/
  promiseTimeout : Nat := 500
  /-- After this time without progress proposals are sent again. -/
  resendPeriod : Nat := 50
  /-- How often a proposal is sent again before a higher round is tried. -/
  resendThreshold : Nat := 10
  /-- How long a learner waits before it asks again for missing slots. -/
  catchUpPeriod : Nat := 200
  /-- How many decided slots are kept below the frontier. -/
  retention : Nat := 1024
  /-- How many messages may wait for a role. -/
  mailboxCapacity : Nat := 1024
  /-- The rules for membership changes. -/
  mode : Mode := .plain
  deriving DecidableEq, Repr

namespace ReplicaSettings

/-- The number of replicas of a majority. -/
def quorum (c : ReplicaSettings) : Nat := c.replicas / 2 + 1

/-- The same settings for another replica of the cluster. -/
def withReplica (c : ReplicaSettings) (replica : Nat) : ReplicaSettings := { c with replica }

/-- The first thing that is wrong with the settings, if anything is. -/
def fault? (c : ReplicaSettings) : Option SettingsFault :=
  if c.replicas = 0 then some .noReplicas
  else if c.replicas ≤ c.replica then some (.foreignReplica c.replica c.replicas)
  else if c.alpha = 0 then some .emptyPipeline
  else if c.resendPeriod = 0 ∨ c.promiseTimeout ≤ c.resendPeriod then some .resendPeriod
  else if c.retention < c.alpha then some .shortRetention
  else if c.mailboxCapacity = 0 then some .emptyMailbox
  else none

/-- Refuses settings that a replica cannot run with. -/
def validate (c : ReplicaSettings) : Except Fault Unit :=
  match c.fault? with
  | some cause => .error (.invalidSettings cause)
  | none => .ok ()

/-- Settings that a replica can run with. -/
structure Valid (c : ReplicaSettings) : Prop where
  /-- The replica is one of the cluster. -/
  member : c.replica < c.replicas
  /-- Some slot may be in flight. -/
  pipeline : 0 < c.alpha
  /-- Proposals are sent again at some time. -/
  resends : 0 < c.resendPeriod
  /-- Proposals are sent again before a higher round is tried. -/
  resendsFirst : c.resendPeriod < c.promiseTimeout
  /-- Every slot in flight is kept. -/
  retains : c.alpha ≤ c.retention
  /-- Some message may wait. -/
  mailbox : 0 < c.mailboxCapacity

/-- Nothing is found wrong exactly with settings that a replica can run with. -/
theorem fault?_eq_none_iff (c : ReplicaSettings) : c.fault? = none ↔ c.Valid := by
  unfold fault?
  constructor
  · intro h
    repeat' split at h
    case isFalse => exact ⟨by omega, by omega, by omega, by omega, by omega, by omega⟩
    all_goals simp at h
  · rintro ⟨h₁, h₂, h₃, h₄, h₅, h₆⟩
    repeat' split
    case isFalse => rfl
    all_goals omega

end ReplicaSettings

/-- The settings of a client. -/
structure ClientSettings where
  /-- How long a command waits for others to make a batch, in milliseconds. -/
  batchWindow : Nat := 10
  /-- The greatest number of commands of a batch. -/
  maxBatch : Nat := 100
  deriving DecidableEq, Repr

/-- The settings of a replica and of a client. -/
structure Settings where
  /-- The settings of the replica. -/
  replica : ReplicaSettings := {}
  /-- The settings of the client. -/
  client : ClientSettings := {}
  deriving DecidableEq, Repr

end ReplicatedLog
