import ReplicatedLog.Settings
import ReplicatedLog.Json.Record

/-!
# Configuration texts

The settings as JSON. A text may leave out any field, which then has its default value, and may
have fields that mean nothing.

* `Settings.ofBytes` — the settings that the contents of a file describe.
* `Settings.toJson` — the settings with every field written out.
-/

namespace ReplicatedLog

/-- The name of a mode. -/
def Mode.name : Mode → String
  | .plain => "plain"
  | .epochAware => "epoch_aware"

/-- The mode with a name. -/
def Mode.ofName? : String → Option Mode
  | "plain" => some .plain
  | "epoch_aware" => some .epochAware
  | _ => none

/-- The mode that a JSON value names. -/
def Mode.ofJson? (j : Json) : Option Mode := j.choice?.bind Mode.ofName?

/-- Every mode has a name of its own. -/
theorem Mode.ofName?_name (mode : Mode) : Mode.ofName? mode.name = some mode := by
  cases mode <;> rfl

namespace ReplicaSettings

/-- The names of the fields, in order. -/
def fieldNames : List String :=
  ["replica_id", "replicas", "alpha", "phase1_timeout_ms", "phase2_timeout_ms",
    "resend_threshold", "catchup_timeout_ms", "retention", "mailbox_capacity", "mode"]

/-- The settings that a JSON value describes. -/
def ofJson? (j : Json) : Option ReplicaSettings := do
  let f ← j.fields? fieldNames
  let c : ReplicaSettings := {}
  return {
    replica := ← Json.defaulted f Json.nat? "replica_id" c.replica
    replicas := ← Json.defaulted f Json.nat? "replicas" c.replicas
    alpha := ← Json.defaulted f Json.nat? "alpha" c.alpha
    promiseTimeout := ← Json.defaulted f Json.nat? "phase1_timeout_ms" c.promiseTimeout
    resendPeriod := ← Json.defaulted f Json.nat? "phase2_timeout_ms" c.resendPeriod
    resendThreshold := ← Json.defaulted f Json.half? "resend_threshold" c.resendThreshold
    catchUpPeriod := ← Json.defaulted f Json.nat? "catchup_timeout_ms" c.catchUpPeriod
    retention := ← Json.defaulted f Json.nat? "retention" c.retention
    mailboxCapacity := ← Json.defaulted f Json.nat? "mailbox_capacity" c.mailboxCapacity
    mode := ← Json.defaulted f Mode.ofJson? "mode" c.mode }

/-- The settings with every field written out. -/
def toJson (c : ReplicaSettings) : Json :=
  .record [("replica_id", .nat c.replica), ("replicas", .nat c.replicas), ("alpha", .nat c.alpha),
    ("phase1_timeout_ms", .nat c.promiseTimeout), ("phase2_timeout_ms", .nat c.resendPeriod),
    ("resend_threshold", .nat c.resendThreshold), ("catchup_timeout_ms", .nat c.catchUpPeriod),
    ("retention", .nat c.retention), ("mailbox_capacity", .nat c.mailboxCapacity),
    ("mode", .text c.mode.name)]

end ReplicaSettings

namespace ClientSettings

/-- The settings that a JSON value describes. -/
def ofJson? (j : Json) : Option ClientSettings := do
  let f ← j.fields? ["batch_window_ms", "max_batch_size"]
  let c : ClientSettings := {}
  return {
    batchWindow := ← Json.defaulted f Json.nat? "batch_window_ms" c.batchWindow
    maxBatch := ← Json.defaulted f Json.nat? "max_batch_size" c.maxBatch }

/-- The settings with every field written out. -/
def toJson (c : ClientSettings) : Json :=
  .record [("batch_window_ms", .nat c.batchWindow), ("max_batch_size", .nat c.maxBatch)]

end ClientSettings

namespace Settings

/-- The settings that a JSON value describes. -/
def ofJson? (j : Json) : Option Settings := do
  let f ← j.fields? ["paxos", "client"]
  return {
    replica := ← Json.defaulted f ReplicaSettings.ofJson? "paxos" {}
    client := ← Json.defaulted f ClientSettings.ofJson? "client" {} }

/-- The settings with every field written out. -/
def toJson (c : Settings) : Json :=
  .record [("paxos", c.replica.toJson), ("client", c.client.toJson)]

/-- The settings that a text describes, provided that a replica can run with them. -/
def ofText (text : String) : Except Fault Settings :=
  match (Json.parse? text).bind ofJson? with
  | none => .error (.invalidSettings .unreadable)
  | some c => do
    c.replica.validate
    return c

/-- The settings that the contents of a file describe. -/
def ofBytes (bytes : ByteArray) : Except Fault Settings :=
  match String.fromUTF8? bytes with
  | none => .error (.io .invalidData)
  | some text => ofText text

end Settings

end ReplicatedLog
