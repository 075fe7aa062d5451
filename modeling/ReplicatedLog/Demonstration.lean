import ReplicatedLog.Settings.Text
import ReplicatedLog.Json.Forms
import ReplicatedLog.Service.Client
import ReplicatedLog.Service.Deployment

/-!
# The demonstration

What the program does when it is run: it starts all replicas of a configuration on a local network,
lets all of them trust replica 0, and has a client submit a number of commands to it. When every
command is decided it reports what the replicas and the client tell about themselves.

* `Demonstration.configPath?` — which file holds the configuration.
* `Demonstration.report` — runs a configuration.
* `Demonstration.run` — both, with what is written for people if the configuration cannot be used.
-/

namespace ReplicatedLog

/-- The JSON form of what a client tells about itself. -/
def ClientStatus.toJson (s : ClientStatus) : Json :=
  .record [("connected", .bool s.connected), ("pending_commands", .nat s.pending),
    ("total_commands", .nat s.total), ("batches_proposed", .nat s.proposed),
    ("batches_rejected", .nat s.rejected)]

namespace Demonstration

/-- The start of the argument that names the configuration file. -/
def configFlag : String := "--config="

/-- What follows `flag` in an argument that begins with it. -/
def argumentAfter (flag argument : String) : Option String :=
  if flag.toList.isPrefixOf argument.toList then
    some (String.ofList (argument.toList.drop flag.length))
  else none

/-- The configuration file that the arguments name; the first counts. -/
def configPath? (arguments : List String) : Option String :=
  arguments.findSome? (argumentAfter configFlag)

/-- The commands that the client submits. -/
def commands : List (List UInt8) :=
  (List.range 20).map fun n => (s!"command-{n}").toUTF8.toList

/-- A batch is submitted to replica 0, and the client gets the answer. -/
def submitBatch (state : Deployment × Client) (batch : Value) : Checked (Deployment × Client) := do
  let (d, c) := state
  let (d, result, _) ← d.propose 0 batch
  return (d, c.reply result.isOk)

/-- The client's commands are submitted to replica 0, batch by batch. -/
def submitCommands (d : Deployment) (c : Client) : Checked (Deployment × Client) := do
  let c := c.connect d.now
  let (d, c) ← commands.foldlM
    (fun (d, c) command => do
      let (c, _, sent) := Client.submit c d.now command
      sent.foldlM submitBatch (d, c))
    (d, c)
  let (c, sent) := c.flush d.now
  sent.foldlM submitBatch (d, c)

/-- What the replicas and the client tell about themselves in the end. -/
def statuses (d : Deployment) (c : Client) : List Json :=
  d.replicas.toList.flatMap (fun r =>
    [r.proposer.proposer.status.toJson, r.learner.learner.status.toJson]) ++ [c.status.toJson]

/-- Runs the demonstration with given settings. -/
def report (c : Settings) : Checked (Except Fault (List Json)) :=
  match Deployment.start c.replica (List.range c.replica.replicas) with
  | .error fault => .ok (.error fault)
  | .ok d => do
    let (d, _) ← d.trust (List.range c.replica.replicas) 0
    let (d, client) ← submitCommands d { config := c.client }
    return .ok (statuses d client)

/-- What the program leaves behind. -/
structure Outcome where
  /-- The exit code. -/
  exitCode : Nat
  /-- The lines of its output. -/
  output : List Json
  /-- What is written for people if it fails. -/
  errorText : String
  /-- Why it failed, if it did. -/
  fault? : Option Fault
  deriving Repr

/-- A success with the given output. -/
def Outcome.success (output : List Json) : Outcome := ⟨0, output, "", none⟩

/-- A failure to use the configuration file at `path`. -/
def Outcome.failure (path : String) (fault : Fault) : Outcome :=
  ⟨1, [], s!"Error: loading config {path}\n\nCaused by:\n    {fault.message}\n", some fault⟩

/-- Runs the demonstration with settings that were read from the file at `path`. -/
def conclude (path : String) (c : Settings) : Checked Outcome := do
  match ← report c with
  | .ok output => return .success output
  | .error fault => return .failure path fault

/-- The settings in the file at `path`. `read` gives the contents of files. -/
def load (read : String → Except IoFault ByteArray) (path : String) : Except Fault Settings :=
  match read path with
  | .error cause => .error (.io cause)
  | .ok bytes => Settings.ofBytes bytes

/-- Runs the demonstration with the configuration that the arguments name, or with the default
settings if they name none. `read` gives the contents of files. -/
def run (arguments : List String) (read : String → Except IoFault ByteArray) : Checked Outcome :=
  match configPath? arguments with
  | none => conclude "" {}
  | some path =>
    match load read path with
    | .error fault => .ok (.failure path fault)
    | .ok c => conclude path c

end Demonstration

end ReplicatedLog
