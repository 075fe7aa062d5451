/-!
# Values

What a slot of the log holds. The payload of a value is opaque to the roles: they compare values
and pass them on. A no-op fills a slot for which nothing was proposed.
-/

namespace ReplicatedLog

/-- What a value is for. -/
inductive Value.Kind where
  /-- Fills a slot and carries nothing. -/
  | noop
  /-- A batch of client commands. -/
  | appBatch
  /-- A change of the membership. -/
  | reconfig
  deriving DecidableEq, Repr

/-- A value of the log. Two values are the same if they agree in kind and payload. -/
structure Value where
  /-- What the value is for. -/
  kind : Value.Kind
  /-- The bytes that the value carries. -/
  payload : List UInt8
  deriving DecidableEq, Repr

namespace Value

/-- The value that fills a slot and carries nothing. -/
def noop : Value := ⟨.noop, []⟩

/-- A batch of client commands, already packed. -/
def appBatch (payload : List UInt8) : Value := ⟨.appBatch, payload⟩

/-- A change of the membership. -/
def reconfig (payload : List UInt8) : Value := ⟨.reconfig, payload⟩

/-- The value of a kind with a payload; a no-op drops the payload. -/
def ofKind : Value.Kind → List UInt8 → Value
  | .noop, _ => noop
  | .appBatch, payload => appBatch payload
  | .reconfig, payload => reconfig payload

/-- Whether the value only fills its slot. -/
def isNoop (v : Value) : Bool := v.kind == .noop

end Value

end ReplicatedLog
