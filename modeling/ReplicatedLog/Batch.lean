import ReplicatedLog.Wire.Codec

/-!
# Batches of commands

Clients have several commands ordered as one value. The payload of such a value is the list of the
commands, each with its length; a no-op carries none.
-/

namespace ReplicatedLog

namespace Batch

/-- Packs commands into one value. -/
def pack (commands : List (List UInt8)) : Value :=
  .appBatch (Wire.writeList Wire.writeByteString commands)

/-- The commands of a value. -/
def unpack (v : Value) : Except Fault (List (List UInt8)) :=
  match v.kind with
  | .noop => .ok []
  | .reconfig => .error (.codec .notABatch)
  | .appBatch =>
    match Wire.readList Wire.readByteString v.payload with
    | none => .error (.codec .malformed)
    | some (commands, _) => .ok commands

end Batch

end ReplicatedLog
