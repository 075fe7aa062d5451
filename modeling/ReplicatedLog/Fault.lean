/-!
# Faults

Why a request is refused or an input is not taken, by cause, and the text that tells people so.
-/

namespace ReplicatedLog

/-- Why reading or writing outside the program failed. -/
inductive IoFault where
  /-- There is no such file. -/
  | notFound
  /-- The bytes read are not text. -/
  | invalidData
  /-- The input ended in the middle of something. -/
  | unexpectedEnd
  /-- The output takes no more bytes. -/
  | writeZero
  /-- Any other reason, as told by the system. -/
  | other (reason : String)
  deriving DecidableEq, Repr

/-- The cause in words. -/
def IoFault.message : IoFault → String
  | .notFound => "No such file or directory (os error 2)"
  | .invalidData => "stream did not contain valid UTF-8"
  | .unexpectedEnd => "unexpected end of file"
  | .writeZero => "write zero"
  | .other reason => reason

/-- Why a message cannot be put on the wire or taken off it. -/
inductive CodecFault where
  /-- The bytes are not those of a message. -/
  | malformed
  /-- A frame without content. -/
  | emptyFrame
  /-- A membership change was read as a batch of commands. -/
  | notABatch
  /-- Any other reason. -/
  | other (reason : String)
  deriving DecidableEq, Repr

/-- The cause in words. -/
def CodecFault.message : CodecFault → String
  | .malformed => "malformed message"
  | .emptyFrame => "Message size cannot be zero"
  | .notABatch => "reconfiguration values carry no client commands"
  | .other reason => reason

/-- Why a message does not reach the one it is for. -/
inductive MailboxFault where
  /-- The receiver has stopped. -/
  | closed
  /-- The receiver did not answer in time. -/
  | timeout
  /-- A client has no proposer to feed. -/
  | notConnected
  /-- Any other reason. -/
  | other (reason : String)
  deriving DecidableEq, Repr

/-- The cause in words. -/
def MailboxFault.message : MailboxFault → String
  | .closed => "Mailbox has closed"
  | .timeout => "Message delivery timed out"
  | .notConnected => "proposer not connected"
  | .other reason => reason

/-- What is wrong with a configuration. -/
inductive SettingsFault where
  /-- The text does not describe a configuration. -/
  | unreadable
  /-- There is no replica. -/
  | noReplicas
  /-- The replica is not one of the cluster. -/
  | foreignReplica (replica replicas : Nat)
  /-- No slot may be in flight. -/
  | emptyPipeline
  /-- The resend period is zero, or not shorter than the period for a new round. -/
  | resendPeriod
  /-- Fewer slots are kept than may be in flight. -/
  | shortRetention
  /-- No message may wait. -/
  | emptyMailbox
  /-- Any other reason. -/
  | other (reason : String)
  deriving DecidableEq, Repr

/-- The cause in words. -/
def SettingsFault.message : SettingsFault → String
  | .unreadable => "the text does not describe a configuration"
  | .noReplicas => "replicas must be at least 1"
  | .foreignReplica replica replicas =>
    s!"replica_id {replica} out of range for {replicas} replicas"
  | .emptyPipeline => "alpha must be positive"
  | .resendPeriod => "phase2_timeout must be positive and less than phase1_timeout"
  | .shortRetention => "retention must cover at least one pipeline window"
  | .emptyMailbox => "mailbox_capacity must be positive"
  | .other reason => reason

/-- Why a request fails. -/
inductive Fault where
  /-- The configuration cannot be used. -/
  | invalidSettings (cause : SettingsFault)
  /-- Only the leader takes values; `leader` is whom the replica trusts instead. -/
  | notLeader (leader : Option Nat)
  /-- A message does not reach its receiver. -/
  | mailbox (cause : MailboxFault)
  /-- Reading or writing failed. -/
  | io (cause : IoFault)
  /-- A message cannot be encoded or decoded. -/
  | codec (cause : CodecFault)
  /-- A message of so many bytes is beyond the limit. -/
  | messageTooLarge (bytes : Nat)
  deriving DecidableEq, Repr

/-- The fault in words. -/
def Fault.message : Fault → String
  | .invalidSettings cause => "Invalid configuration: " ++ cause.message
  | .notLeader (some leader) => s!"Not the leader, current leader is replica {leader}"
  | .notLeader none => "Not the leader, no leader is trusted"
  | .mailbox cause => "Mailbox error: " ++ cause.message
  | .io cause => "IO error: " ++ cause.message
  | .codec cause => "Codec error: " ++ cause.message
  | .messageTooLarge bytes => s!"Encoded message of {bytes} bytes exceeds size limit"

end ReplicatedLog
