import ReplicatedLog.Fault
import ReplicatedLog.Message
import ReplicatedLog.Wire.Varint

/-!
# Messages on the wire

The bytes of a message are those of its fields, in the order in which the types list them. A list
is preceded by its length, a choice by the number of the constructor, counted from zero. Nothing
else is written; a reader knows from the types what comes next, and does not look at bytes that
follow.

* `writeEnvelope`, `readEnvelope` — the bytes of a message with its source.
* `encode`, `decode` — the same within the limit on the size of a message.
-/

namespace ReplicatedLog.Wire

/-- The greatest number of bytes of a message. -/
def maxMessageSize : Nat := 10 * 1024 * 1024

/-! ### Lists -/

/-- Writes a list: its length, then its elements. -/
def writeList {α : Type} (write : α → List UInt8) (xs : List α) : List UInt8 :=
  writeNat xs.length ++ xs.flatMap write

/-- Reads `count` elements and puts them behind those already read, which are given last first. -/
def readMany {α : Type} (read : Reader α) : (count : Nat) → (done : List α) → Reader (List α)
  | 0, done => fun bytes => some (done.reverse, bytes)
  | count + 1, done => fun bytes =>
    match read bytes with
    | none => none
    | some (x, bytes) => readMany read count (x :: done) bytes

/-- Reads a list: its length, then its elements. -/
def readList {α : Type} (read : Reader α) : Reader (List α) := fun bytes => do
  let (count, bytes) ← readNat .full bytes
  readMany read count [] bytes

/-! ### Parts of messages -/

/-- Writes a pair, one after the other. -/
def writePair {α β : Type} (writeFst : α → List UInt8) (writeSnd : β → List UInt8) (p : α × β) :
    List UInt8 :=
  writeFst p.1 ++ writeSnd p.2

/-- Reads a pair, one after the other. -/
def readPair {α β : Type} (readFst : Reader α) (readSnd : Reader β) : Reader (α × β) :=
  fun bytes => do
    let (a, bytes) ← readFst bytes
    let (b, bytes) ← readSnd bytes
    return ((a, b), bytes)

/-- Writes a round. -/
def writeRound (r : Round) : List UInt8 := writeNat r.counter ++ writeNat r.owner

/-- Reads a round. -/
def readRound : Reader Round := fun bytes => do
  let (counter, bytes) ← readNat .full bytes
  let (owner, bytes) ← readNat .full bytes
  return (⟨counter, owner⟩, bytes)

/-- The number of a kind of value. -/
def kindIndex : Value.Kind → Nat
  | .noop => 0
  | .appBatch => 1
  | .reconfig => 2

/-- The kind of value with a number. -/
def kindOfIndex : Nat → Option Value.Kind
  | 0 => some .noop
  | 1 => some .appBatch
  | 2 => some .reconfig
  | _ => none

/-- Writes bytes: their number, then the bytes as they are. -/
def writeByteString (bytes : List UInt8) : List UInt8 := writeNat bytes.length ++ bytes

/-- Reads bytes: their number, then the bytes as they are. -/
def readByteString : Reader (List UInt8) := fun bytes => do
  let (count, bytes) ← readNat .full bytes
  readBytes count bytes

/-- Writes a value. -/
def writeValue (v : Value) : List UInt8 := writeNat (kindIndex v.kind) ++ writeByteString v.payload

/-- Reads a value. -/
def readValue : Reader Value := fun bytes => do
  let (index, bytes) ← readNat .half bytes
  let kind ← kindOfIndex index
  let (payload, bytes) ← readByteString bytes
  return (⟨kind, payload⟩, bytes)

/-- Writes an epoch vector. -/
def writeEpochs (v : EpochVector) : List UInt8 := writeList writeNat v.entries

/-- Reads an epoch vector. -/
def readEpochs : Reader EpochVector := fun bytes => do
  let (entries, bytes) ← readList (readNat .full) bytes
  return (⟨entries⟩, bytes)

/-- Writes a reported vote. -/
def writeReport (r : Report) : List UInt8 :=
  writeNat r.slot ++ (writeRound r.round ++ writeValue r.value)

/-- Reads a reported vote. -/
def readReport : Reader Report := fun bytes => do
  let (slot, bytes) ← readNat .full bytes
  let (round, bytes) ← readRound bytes
  let (value, bytes) ← readValue bytes
  return (⟨slot, round, value⟩, bytes)

/-! ### Messages -/

/-- Writes a message: the number of its kind, then its fields. -/
def writeMessage : Message → List UInt8
  | .prepare m =>
    writeNat 0 ++ (writeNat m.sender ++ (writeRound m.round ++ writeNat m.slot))
  | .promise m =>
    writeNat 1 ++ (writeNat m.sender ++ (writeRound m.round ++
      (writeList writeReport m.reports ++ writeEpochs m.epochs)))
  | .accept m =>
    writeNat 2 ++ (writeNat m.sender ++ (writeRound m.round ++
      (writeNat m.slot ++ (writeValue m.value ++ writeEpochs m.epochs))))
  | .learn m =>
    writeNat 3 ++ (writeNat m.sender ++ (writeNat m.slot ++
      (writeRound m.round ++ (writeValue m.value ++ writeEpochs m.epochs))))
  | .catchUpRequest m =>
    writeNat 4 ++ (writeNat m.sender ++ writeList (writePair writeNat writeNat) m.ranges)
  | .catchUpResponse m =>
    writeNat 5 ++ (writeNat m.sender ++ writeList (writePair writeNat writeValue) m.decided)

/-- Reads the fields of a message of the kind with a number. -/
def readBody : (index : Nat) → Reader Message
  | 0 => fun bytes => do
    let (sender, bytes) ← readNat .full bytes
    let (round, bytes) ← readRound bytes
    let (slot, bytes) ← readNat .full bytes
    return (.prepare ⟨sender, round, slot⟩, bytes)
  | 1 => fun bytes => do
    let (sender, bytes) ← readNat .full bytes
    let (round, bytes) ← readRound bytes
    let (reports, bytes) ← readList readReport bytes
    let (epochs, bytes) ← readEpochs bytes
    return (.promise ⟨sender, round, reports, epochs⟩, bytes)
  | 2 => fun bytes => do
    let (sender, bytes) ← readNat .full bytes
    let (round, bytes) ← readRound bytes
    let (slot, bytes) ← readNat .full bytes
    let (value, bytes) ← readValue bytes
    let (epochs, bytes) ← readEpochs bytes
    return (.accept ⟨sender, round, slot, value, epochs⟩, bytes)
  | 3 => fun bytes => do
    let (sender, bytes) ← readNat .full bytes
    let (slot, bytes) ← readNat .full bytes
    let (round, bytes) ← readRound bytes
    let (value, bytes) ← readValue bytes
    let (epochs, bytes) ← readEpochs bytes
    return (.learn ⟨sender, slot, round, value, epochs⟩, bytes)
  | 4 => fun bytes => do
    let (sender, bytes) ← readNat .full bytes
    let (ranges, bytes) ← readList (readPair (readNat .full) (readNat .full)) bytes
    return (.catchUpRequest ⟨sender, ranges⟩, bytes)
  | 5 => fun bytes => do
    let (sender, bytes) ← readNat .full bytes
    let (decided, bytes) ← readList (readPair (readNat .full) readValue) bytes
    return (.catchUpResponse ⟨sender, decided⟩, bytes)
  | _ => fun _ => none

/-- Reads a message. -/
def readMessage : Reader Message := fun bytes => do
  let (index, bytes) ← readNat .half bytes
  readBody index bytes

/-- Writes a message with its source. -/
def writeEnvelope (e : Envelope) : List UInt8 := writeNat e.source ++ writeMessage e.message

/-- Reads a message with its source. -/
def readEnvelope : Reader Envelope := fun bytes => do
  let (source, bytes) ← readNat .full bytes
  let (message, bytes) ← readMessage bytes
  return (⟨source, message⟩, bytes)

/-! ### The limit -/

/-- The bytes of a message with its source, within the limit. -/
def encode (e : Envelope) : Except Fault (List UInt8) :=
  let bytes := writeEnvelope e
  let size := bytes.length
  if maxMessageSize < size then .error (.messageTooLarge size) else .ok bytes

/-- The message at the front of the bytes, if there are not more of them than the limit. -/
def decode (bytes : List UInt8) : Except Fault Envelope :=
  let size := bytes.length
  if maxMessageSize < size then .error (.messageTooLarge size)
  else
    match readEnvelope bytes with
    | none => .error (.codec .malformed)
    | some (e, _) => .ok e

/-- The message as it arrives after it was encoded and decoded. -/
def carry (e : Envelope) : Except Fault Envelope := encode e >>= decode

end ReplicatedLog.Wire
