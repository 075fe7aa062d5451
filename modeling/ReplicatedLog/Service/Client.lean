import ReplicatedLog.Batch
import ReplicatedLog.Settings
import ReplicatedLog.Service.Clock

/-!
# Clients

A client gathers commands into batches and has each batch proposed as one value. A batch goes out
when it is full, when its oldest command has waited for the length of the batch window, or when
somebody asks for it. The proposer answers every batch later on.

* `Client.connect`, `Client.submit`, `Client.flush`, `Client.fire`, `Client.reply` — what can happen
  to a client.
* `Session` — a client together with a proposer that agrees to everything, refuses everything, or
  has stopped.
-/

namespace ReplicatedLog

/-- The state of a client. -/
structure Client where
  /-- Its settings. -/
  config : ClientSettings
  /-- Whether it has a proposer to feed. -/
  connected : Bool := false
  /-- The commands not yet sent, in order of submission. -/
  pending : List (List UInt8) := []
  /-- The number of commands taken; also the identifier of the last one. -/
  total : Nat := 0
  /-- The number of batches that the proposer took. -/
  proposed : Nat := 0
  /-- The number of batches that the proposer refused or did not get. -/
  rejected : Nat := 0
  /-- The number of batches that are not answered yet. -/
  unanswered : Nat := 0
  /-- The handle of the alarm that ends the batch window, if a command waits for that. -/
  timer : Option Nat := none
  /-- The alarms that it has set. -/
  alarms : Alarms := {}
  deriving DecidableEq, Repr

/-- What a client tells about itself. -/
structure ClientStatus where
  /-- Whether it has a proposer to feed. -/
  connected : Bool
  /-- The number of commands not yet sent. -/
  pending : Nat
  /-- The number of commands taken. -/
  total : Nat
  /-- The number of batches that the proposer took. -/
  proposed : Nat
  /-- The number of batches that the proposer refused or did not get. -/
  rejected : Nat
  deriving DecidableEq, Repr

namespace Client

/-- What the client tells about itself. -/
def status (c : Client) : ClientStatus :=
  ⟨c.connected, c.pending.length, c.total, c.proposed, c.rejected⟩

/-- Ends the batch window before its time, if one runs. -/
def closeWindow (c : Client) : Client :=
  match c.timer with
  | none => c
  | some handle => { c with timer := none, alarms := c.alarms.clear handle }

/-- Begins a batch window, in place of one that runs. -/
def openWindow (c : Client) (now : Nat) : Client :=
  let c := c.closeWindow
  let (alarms, handle) := c.alarms.set (now + c.config.batchWindow)
  { c with timer := some handle, alarms }

/-- Begins a batch window, unless one runs. -/
def ensureWindow (c : Client) (now : Nat) : Client :=
  if c.timer.isNone then c.openWindow now else c

/-- Ends the batch window and sends one batch, if there are commands and a proposer. Commands that
are left wait for the next window. -/
def sendBatch (c : Client) (now : Nat) : Client × List Value :=
  let c := c.closeWindow
  if c.pending.isEmpty || !c.connected then (c, [])
  else
    let batch := c.pending.take c.config.maxBatch
    let c := { c with
      pending := c.pending.drop c.config.maxBatch
      unanswered := c.unanswered + 1 }
    (if c.pending.isEmpty then c else c.openWindow now, [Batch.pack batch])

/-- The client gets a proposer to feed. -/
def connect (c : Client) (now : Nat) : Client :=
  let c := { c with connected := true }
  if c.pending.isEmpty then c else c.ensureWindow now

/-- Somebody submits a command. Gives its identifier, and the batch that it completes, if it does;
without a proposer the command is refused. -/
def submit (c : Client) (now : Nat) (command : List UInt8) :
    Client × Except Fault Nat × List Value :=
  if !c.connected then (c, .error (.mailbox .notConnected), [])
  else
    let id := c.total + 1
    let c := { c with total := id, pending := c.pending ++ [command] }
    if c.config.maxBatch ≤ c.pending.length then
      let (c, sent) := c.sendBatch now
      (c, .ok id, sent)
    else (c.ensureWindow now, .ok id, [])

/-- Sends batches until no command is left. There are no more batches than commands. -/
def flushUpTo (now : Nat) : (limit : Nat) → Client → Client × List Value
  | 0, c => (c, [])
  | limit + 1, c =>
    if c.pending.isEmpty || !c.connected then (c, [])
    else
      let (c, first) := c.sendBatch now
      let (c, rest) := flushUpTo now limit c
      (c, first ++ rest)

/-- Somebody asks for everything to be sent now. -/
def flush (c : Client) (now : Nat) : Client × List Value := flushUpTo now c.pending.length c

/-- An alarm goes off, if it is running: the batch window ends. -/
def fire (c : Client) (now handle : Nat) : Client × List Value :=
  if c.alarms.isRunning handle then
    sendBatch { c with timer := none, alarms := c.alarms.clear handle } now
  else (c, [])

/-- The proposer answers a batch, if one is not answered yet. -/
def reply (c : Client) (taken : Bool) : Client :=
  if c.unanswered = 0 then c
  else
    { c with
      unanswered := c.unanswered - 1
      proposed := if taken then c.proposed + 1 else c.proposed
      rejected := if taken then c.rejected else c.rejected + 1 }

end Client

/-- How a proposer behaves towards a client. -/
inductive Counterpart where
  /-- It takes every batch. -/
  | agreeing
  /-- It does not lead, and trusts `leader`. -/
  | refusing (leader : Option Nat)
  /-- It has stopped. -/
  | stopped
  deriving DecidableEq, Repr

/-- A client together with a proposer. -/
structure Session where
  /-- The client. -/
  client : Client
  /-- The proposer. -/
  counterpart : Counterpart := .agreeing
  /-- The time. -/
  now : Nat := 0
  /-- Whether somebody still has hold of the client. If nobody has, it goes on only until the batch
  window ends. -/
  attended : Bool := true
  deriving DecidableEq, Repr

namespace Session

/-- The proposer answers the batches that were sent. Gives those that it got. -/
def answer (s : Session) (sent : List Value) : Session × List Value :=
  let taken := match s.counterpart with
    | .agreeing => true
    | _ => false
  let got := match s.counterpart with
    | .stopped => []
    | _ => sent
  ({ s with client := sent.foldl (fun c _ => c.reply taken) s.client }, got)

/-- Ends batch windows that are over; no more than `limit` of them. -/
def settleUpTo : (limit : Nat) → Session → Session × List Value
  | 0, s => (s, [])
  | limit + 1, s =>
    match s.client.alarms.first? with
    | none => (s, [])
    | some (handle, deadline) =>
      if deadline ≤ s.now then
        let (client, sent) := s.client.fire s.now handle
        let (s, first) := answer { s with client } sent
        let (s, rest) := settleUpTo limit s
        (s, first ++ rest)
      else (s, [])

/-- Ends batch windows that are over. Each sends a command at least. -/
def settle (s : Session) : Session × List Value := settleUpTo (s.client.pending.length + 1) s

/-- The client has acted; its batches are answered, and windows that are over are ended. -/
def after (s : Session) (client : Client) (sent : List Value) : Session × List Value :=
  let (s, first) := answer { s with client } sent
  let (s, rest) := s.settle
  (s, first ++ rest)

/-- The client is connected to the proposer. -/
def connect (s : Session) : Session × List Value := s.after (s.client.connect s.now) []

/-- Somebody submits a command. -/
def submit (s : Session) (command : List UInt8) : Session × Except Fault Nat × List Value :=
  let (client, id, sent) := s.client.submit s.now command
  let (s, got) := s.after client sent
  (s, id, got)

/-- Somebody submits commands, one right after the other. -/
def submitAll (s : Session) (commands : List (List UInt8)) : Session × List Value :=
  let (client, sent) := commands.foldl
    (fun (client, sent) command =>
      let (client, _, batches) := client.submit s.now command
      (client, sent ++ batches))
    (s.client, [])
  s.after client sent

/-- Somebody asks for everything to be sent now. -/
def flush (s : Session) : Session × List Value :=
  let (client, sent) := s.client.flush s.now
  s.after client sent

/-- Time passes. -/
def passUpTo : (limit : Nat) → (target : Nat) → Session → Session × List Value
  | 0, target, s => ({ s with now := target }, [])
  | limit + 1, target, s =>
    match s.client.alarms.first? with
    | some (_, deadline) =>
      if deadline ≤ target then
        let (s, first) := settle { s with now := max s.now deadline }
        let (s, rest) := passUpTo limit target s
        (s, first ++ rest)
      else ({ s with now := target }, [])
    | none => ({ s with now := target }, [])

/-- Time passes. Every batch window that ends sends a command at least. -/
def pass (s : Session) (ms : Nat) : Session × List Value :=
  passUpTo (s.client.pending.length + 1) (s.now + ms) s

/-- The proposer behaves in another way from now on, unless it has stopped. -/
def turn (s : Session) (counterpart : Counterpart) : Session :=
  match s.counterpart with
  | .stopped => s
  | _ => { s with counterpart }

/-- Nobody has hold of the client any more. -/
def leave (s : Session) : Session := { s with attended := false }

end Session

end ReplicatedLog
