import ReplicatedLog.Wire.Codec

/-!
# Frames

On a stream of bytes each message stands in a frame: the number of its bytes in four bytes, most
significant first, then its bytes.

* `Sink`, `writeFrame`, `writeFrames` — write frames where there may not be room for them.
* `readFrame`, `readFrames` — read frames until something is wrong, the end of the stream included.
-/

namespace ReplicatedLog.Wire

/-- The length of a frame in four bytes, the most significant first. -/
def frameHeader (length : Nat) : List UInt8 := (littleEndian 4 length).reverse

/-! ### Writing -/

/-- Where bytes are written to. -/
structure Sink where
  /-- The bytes written so far. -/
  written : List UInt8 := []
  /-- How many more bytes it takes; `none` if there is no limit. -/
  room : Option Nat := none
  deriving DecidableEq, Repr

/-- Writes bytes, as far as there is room for them; fails unless there was room for all. -/
def Sink.put (s : Sink) (bytes : List UInt8) : Sink × Except Fault Unit :=
  match s.room with
  | none => ({ s with written := s.written ++ bytes }, .ok ())
  | some room =>
    let fitting := bytes.take room
    ({ written := s.written ++ fitting, room := some (room - fitting.length) },
      if bytes.length ≤ room then .ok () else .error (.io .writeZero))

/-- Writes the frame of a message. A message beyond the limit leaves no trace; a frame for which
there is not enough room is cut off. -/
def writeFrame (s : Sink) (e : Envelope) : Sink × Except Fault Unit :=
  match encode e with
  | .error fault => (s, .error fault)
  | .ok bytes =>
    match s.put (frameHeader bytes.length) with
    | (s, .error fault) => (s, .error fault)
    | (s, .ok ()) => s.put bytes

/-- Writes the frames of messages up to the first that fails. Gives what came of each. -/
def writeFrames (s : Sink) : List Envelope → Sink × List (Except Fault Unit)
  | [] => (s, [])
  | e :: rest =>
    match writeFrame s e with
    | (s, .error fault) => (s, [.error fault])
    | (s, .ok ()) =>
      let (s, results) := writeFrames s rest
      (s, .ok () :: results)

/-! ### Reading -/

/-- Takes `count` bytes off the stream. A stream that is too short is used up by the attempt. -/
def takeBytes (count : Nat) (stream : List UInt8) : Except Fault (List UInt8) × List UInt8 :=
  match readBytes count stream with
  | some (bytes, stream) => (.ok bytes, stream)
  | none => (.error (.io .unexpectedEnd), [])

/-- Reads one frame off the stream. The stream that is left starts behind what was read, also if
something was wrong. -/
def readFrame (stream : List UInt8) : Except Fault Envelope × List UInt8 :=
  match takeBytes 4 stream with
  | (.error fault, stream) => (.error fault, stream)
  | (.ok header, stream) =>
    let length := ofLittleEndian header.reverse
    if maxMessageSize < length then (.error (.messageTooLarge length), stream)
    else if length = 0 then (.error (.codec .emptyFrame), stream)
    else
      match takeBytes length stream with
      | (.error fault, stream) => (.error fault, stream)
      | (.ok bytes, stream) => (decode bytes, stream)

/-- Reads frames until something is wrong. Gives the messages read, the fault that ended it, and
what is left of the stream. A stream of `n` bytes holds fewer than `n` frames; `limit` bounds
their number. -/
def readFramesUpTo : (limit : Nat) → (stream : List UInt8) →
    List Envelope × Fault × List UInt8
  | 0, stream => ([], .io .unexpectedEnd, stream)
  | limit + 1, stream =>
    match readFrame stream with
    | (.error fault, stream) => ([], fault, stream)
    | (.ok e, stream) =>
      let (es, fault, stream) := readFramesUpTo limit stream
      (e :: es, fault, stream)

/-- Reads frames until something is wrong, the end of the stream included. -/
def readFrames (stream : List UInt8) : List Envelope × Fault × List UInt8 :=
  readFramesUpTo (stream.length + 1) stream

end ReplicatedLog.Wire
