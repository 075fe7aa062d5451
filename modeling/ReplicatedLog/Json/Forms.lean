import ReplicatedLog.Acceptor
import ReplicatedLog.Json.Record
import ReplicatedLog.Learner
import ReplicatedLog.Proposer

/-!
# JSON forms

How rounds, values, messages and the reports of the roles are written in JSON, and how they are
read back. Records are written as objects; a message as an object with one member, named for the
kind of the message.
-/

namespace ReplicatedLog

namespace Round

/-- The JSON form of a round. -/
def toJson (r : Round) : Json := .record [("counter", .nat r.counter), ("owner", .nat r.owner)]

/-- The round that a JSON value is the form of. -/
def ofJson? (j : Json) : Option Round := do
  let f ← j.fields? ["counter", "owner"]
  return ⟨← Json.required f Json.nat? "counter", ← Json.required f Json.nat? "owner"⟩

end Round

namespace Value.Kind

/-- The name of a kind of value. -/
def name : Value.Kind → String
  | .noop => "Noop"
  | .appBatch => "AppBatch"
  | .reconfig => "Reconfig"

/-- The kind of value with a name. -/
def ofName? : String → Option Value.Kind
  | "Noop" => some .noop
  | "AppBatch" => some .appBatch
  | "Reconfig" => some .reconfig
  | _ => none

/-- Every kind has a name of its own. -/
theorem ofName?_name (kind : Value.Kind) : ofName? kind.name = some kind := by
  cases kind <;> rfl

end Value.Kind

/-- The byte that a JSON value is the form of. -/
def Json.byte? (j : Json) : Option UInt8 := do
  let n ← j.nat?
  if n < 256 then some (UInt8.ofNat n) else none

namespace Value

/-- The JSON form of a value. -/
def toJson (v : Value) : Json :=
  .record [("kind", .text v.kind.name), ("payload", .list (fun b => .nat b.toNat) v.payload)]

/-- The value that a JSON value is the form of. -/
def ofJson? (j : Json) : Option Value := do
  let f ← j.fields? ["kind", "payload"]
  let kind ← Json.required f Json.choice? "kind"
  return ⟨← Value.Kind.ofName? kind, ← Json.required f (Json.listOf? Json.byte?) "payload"⟩

end Value

namespace EpochVector

/-- The JSON form of an epoch vector. -/
def toJson (v : EpochVector) : Json := .list .nat v.entries

/-- The epoch vector that a JSON value is the form of. -/
def ofJson? (j : Json) : Option EpochVector := return ⟨← j.listOf? Json.nat?⟩

end EpochVector

/-- The JSON form of a slot with its value. -/
def slotValueJson (entry : Nat × Value) : Json := .array [.nat entry.1, entry.2.toJson]

/-- The slot with its value that a JSON value is the form of. -/
def slotValueOfJson? (j : Json) : Option (Nat × Value) := do
  match ← j.items? with
  | [slot, value] => return (← slot.nat?, ← Value.ofJson? value)
  | _ => none

/-- The JSON form of a range of slots. -/
def rangeJson (range : Nat × Nat) : Json := .array [.nat range.1, .nat range.2]

/-- The range of slots that a JSON value is the form of. -/
def rangeOfJson? (j : Json) : Option (Nat × Nat) := do
  match ← j.items? with
  | [first, last] => return (← first.nat?, ← last.nat?)
  | _ => none

/-! ### Messages -/

namespace Prepare

/-- The JSON form of the fields. -/
def toJson (m : Prepare) : Json :=
  .record [("sender", .nat m.sender), ("candidate_round", m.round.toJson), ("slot", .nat m.slot)]

/-- The fields that a JSON value is the form of. -/
def ofJson? (j : Json) : Option Prepare := do
  let f ← j.fields? ["sender", "candidate_round", "slot"]
  return ⟨← Json.required f Json.nat? "sender", ← Json.required f Round.ofJson? "candidate_round",
    ← Json.required f Json.nat? "slot"⟩

end Prepare

namespace Report

/-- The JSON form of a reported vote. -/
def toJson (r : Report) : Json :=
  .record [("slot", .nat r.slot), ("vrnd", r.round.toJson), ("vval", r.value.toJson)]

/-- The reported vote that a JSON value is the form of. -/
def ofJson? (j : Json) : Option Report := do
  let f ← j.fields? ["slot", "vrnd", "vval"]
  return ⟨← Json.required f Json.nat? "slot", ← Json.required f Round.ofJson? "vrnd",
    ← Json.required f Value.ofJson? "vval"⟩

end Report

namespace Promise

/-- The JSON form of the fields. -/
def toJson (m : Promise) : Json :=
  .record [("sender", .nat m.sender), ("round", m.round.toJson),
    ("accumulated_slots", .list Report.toJson m.reports), ("epoch_vector", m.epochs.toJson)]

/-- The fields that a JSON value is the form of. -/
def ofJson? (j : Json) : Option Promise := do
  let f ← j.fields? ["sender", "round", "accumulated_slots", "epoch_vector"]
  return ⟨← Json.required f Json.nat? "sender", ← Json.required f Round.ofJson? "round",
    ← Json.required f (Json.listOf? Report.ofJson?) "accumulated_slots",
    ← Json.required f EpochVector.ofJson? "epoch_vector"⟩

end Promise

namespace Accept

/-- The JSON form of the fields. -/
def toJson (m : Accept) : Json :=
  .record [("sender", .nat m.sender), ("round", m.round.toJson), ("slot", .nat m.slot),
    ("value", m.value.toJson), ("epoch_vector", m.epochs.toJson)]

/-- The fields that a JSON value is the form of. -/
def ofJson? (j : Json) : Option Accept := do
  let f ← j.fields? ["sender", "round", "slot", "value", "epoch_vector"]
  return ⟨← Json.required f Json.nat? "sender", ← Json.required f Round.ofJson? "round",
    ← Json.required f Json.nat? "slot", ← Json.required f Value.ofJson? "value",
    ← Json.required f EpochVector.ofJson? "epoch_vector"⟩

end Accept

namespace Learn

/-- The JSON form of the fields. -/
def toJson (m : Learn) : Json :=
  .record [("sender", .nat m.sender), ("slot", .nat m.slot), ("round", m.round.toJson),
    ("value", m.value.toJson), ("epoch_vector", m.epochs.toJson)]

/-- The fields that a JSON value is the form of. -/
def ofJson? (j : Json) : Option Learn := do
  let f ← j.fields? ["sender", "slot", "round", "value", "epoch_vector"]
  return ⟨← Json.required f Json.nat? "sender", ← Json.required f Json.nat? "slot",
    ← Json.required f Round.ofJson? "round", ← Json.required f Value.ofJson? "value",
    ← Json.required f EpochVector.ofJson? "epoch_vector"⟩

end Learn

namespace CatchUpRequest

/-- The JSON form of the fields. -/
def toJson (m : CatchUpRequest) : Json :=
  .record [("sender", .nat m.sender), ("ranges", .list rangeJson m.ranges)]

/-- The fields that a JSON value is the form of. -/
def ofJson? (j : Json) : Option CatchUpRequest := do
  let f ← j.fields? ["sender", "ranges"]
  return ⟨← Json.required f Json.nat? "sender",
    ← Json.required f (Json.listOf? rangeOfJson?) "ranges"⟩

end CatchUpRequest

namespace CatchUpResponse

/-- The JSON form of the fields. -/
def toJson (m : CatchUpResponse) : Json :=
  .record [("sender", .nat m.sender), ("decided", .list slotValueJson m.decided)]

/-- The fields that a JSON value is the form of. -/
def ofJson? (j : Json) : Option CatchUpResponse := do
  let f ← j.fields? ["sender", "decided"]
  return ⟨← Json.required f Json.nat? "sender",
    ← Json.required f (Json.listOf? slotValueOfJson?) "decided"⟩

end CatchUpResponse

namespace Message

/-- The JSON form of a message. -/
def toJson : Message → Json
  | .prepare m => .record [("Prepare", m.toJson)]
  | .promise m => .record [("Promise", m.toJson)]
  | .accept m => .record [("Accept", m.toJson)]
  | .learn m => .record [("Learn", m.toJson)]
  | .catchUpRequest m => .record [("CatchUpRequest", m.toJson)]
  | .catchUpResponse m => .record [("CatchUpResponse", m.toJson)]

/-- The message that a JSON value is the form of. -/
def ofJson? (j : Json) : Option Message := do
  match ← j.members? with
  | [(some "Prepare", body)] => return .prepare (← Prepare.ofJson? body)
  | [(some "Promise", body)] => return .promise (← Promise.ofJson? body)
  | [(some "Accept", body)] => return .accept (← Accept.ofJson? body)
  | [(some "Learn", body)] => return .learn (← Learn.ofJson? body)
  | [(some "CatchUpRequest", body)] => return .catchUpRequest (← CatchUpRequest.ofJson? body)
  | [(some "CatchUpResponse", body)] => return .catchUpResponse (← CatchUpResponse.ofJson? body)
  | _ => none

end Message

namespace Envelope

/-- The JSON form of a message with its source. -/
def toJson (e : Envelope) : Json :=
  .record [("from", .nat e.source), ("message", e.message.toJson)]

/-- The message with its source that a JSON value is the form of. -/
def ofJson? (j : Json) : Option Envelope := do
  let f ← j.fields? ["from", "message"]
  return ⟨← Json.required f Json.nat? "from", ← Json.required f Message.ofJson? "message"⟩

end Envelope

/-! ### Reports of the roles -/

namespace Snapshot

/-- The JSON form of a snapshot; each vote is an array of slot, round and value. -/
def toJson (s : Snapshot) : Json :=
  .record [("rnd", s.round.toJson),
    ("slots", .list (fun r => .array [.nat r.slot, r.round.toJson, r.value.toJson]) s.votes)]

/-- The vote that an array of slot, round and value is the form of. -/
def voteOfJson? (j : Json) : Option Report := do
  match ← j.items? with
  | [slot, round, value] => return ⟨← slot.nat?, ← Round.ofJson? round, ← Value.ofJson? value⟩
  | _ => none

/-- The snapshot that a JSON value is the form of. -/
def ofJson? (j : Json) : Option Snapshot := do
  let f ← j.fields? ["rnd", "slots"]
  return ⟨← Json.required f Round.ofJson? "rnd",
    ← Json.required f (Json.listOf? voteOfJson?) "slots"⟩

end Snapshot

/-- The name of a phase. -/
def Phase.name : Phase → String
  | .idle => "Idle"
  | .one => "One"
  | .two => "Two"

/-- The JSON form of what a proposer tells about itself. -/
def ProposerStatus.toJson (s : ProposerStatus) : Json :=
  .record [("id", .nat s.id), ("leader", .orNull .nat s.leader), ("phase", .text s.phase.name),
    ("round", s.round.toJson), ("adu", .nat s.adu), ("next_slot", .nat s.nextSlot),
    ("queued", .nat s.queued)]

/-- The JSON form of what a learner tells about itself. -/
def LearnerStatus.toJson (s : LearnerStatus) : Json :=
  .record [("id", .nat s.id), ("leader", .orNull .nat s.leader), ("adu", .nat s.adu),
    ("catching_up", .bool s.catchingUp)]

end ReplicatedLog
