import ReplicatedLog.Service.Client
import ReplicatedLog.Proofs.Roles
import ReplicatedLog.Proofs.RoundTrip

/-!
# The batches of a client

Whatever happens to a client, and whenever its batches are answered, the commands that it took are in
the batches that it sent, in the order in which it took them, or wait (`Client.Accounts`). No command
waits for ever: while there are any, there are too few for a batch, and one alarm is running, whose
handle the client knows (`Client.Armed`).

A batch leaves in three ways: when it is full, when the alarm goes off, and when somebody asks for
everything to be sent. Each of them closes the batch window, so that its alarm cannot go off later for
commands that came after it.
-/

namespace ReplicatedLog

/-- Commands are unpacked as they were packed. -/
theorem Batch.unpack_pack {commands : List (List UInt8)} (hlength : commands.length < Word.size)
    (hcommands : ∀ command ∈ commands, command.length < Word.size) :
    Batch.unpack (Batch.pack commands) = .ok commands := by
  have hread := Wire.restores_list hlength
    (fun command hmem => Wire.restores_byteString (hcommands command hmem)) []
  rw [List.append_nil] at hread
  simp only [unpack, pack, Value.appBatch, hread]

namespace Client

/-! ### What can happen to a client -/

/-- What can happen to a client. -/
inductive Input where
  /-- It gets a proposer to feed. -/
  | connect (now : Nat)
  /-- Somebody submits a command. -/
  | submit (now : Nat) (command : List UInt8)
  /-- Somebody asks for everything to be sent. -/
  | flush (now : Nat)
  /-- An alarm goes off. -/
  | fire (now handle : Nat)
  /-- The proposer answers a batch. -/
  | reply (taken : Bool)
  deriving DecidableEq, Repr

/-- What a client does in answer to an input. -/
structure Output where
  /-- The identifier of the command that was submitted, or why it was refused. -/
  answer : Option (Except Fault Nat) := none
  /-- The values sent to the proposer. -/
  sent : List Value := []

/-- The client after an input, and what it does about it. -/
def step (c : Client) : Input → Client × Output
  | .connect now => (c.connect now, {})
  | .submit now command =>
    let (c, answer, sent) := c.submit now command
    (c, { answer := some answer, sent })
  | .flush now =>
    let (c, sent) := c.flush now
    (c, { sent })
  | .fire now handle =>
    let (c, sent) := c.fire now handle
    (c, { sent })
  | .reply taken => (c.reply taken, {})

/-- No step of a client fails. -/
def act (c : Client) (x : Input) : Checked (Client × Output) := .ok (c.step x)

/-- The steps of a run, in order. -/
abbrev Past := List (Turn Client Input Output)

/-- The command that a step took, with its identifier. -/
def taken? (t : Turn Client Input Output) : Option (Nat × List UInt8) :=
  match t.input, t.output.answer with
  | .submit _ command, some (.ok id) => some (id, command)
  | _, _ => none

/-- The commands that were taken, with their identifiers, in order. -/
def taken (past : Past) : List (Nat × List UInt8) := past.filterMap taken?

/-- The values that were sent to the proposer, in order. -/
def sentIn (past : Past) : List Value := past.flatMap fun t => t.output.sent

variable {config : ClientSettings} {c c' : Client} {x : Input} {o : Output} {past : Past}
  {commands : List (Nat × List UInt8)} {sent : List Value} {now : Nat}

@[simp]
theorem taken_append_singleton (past : Past) (t : Turn Client Input Output) :
    taken (past ++ [t]) = taken past ++ (taken? t).toList := by
  cases h : taken? t <;> simp [taken, h]

@[simp]
theorem sentIn_append_singleton (past : Past) (t : Turn Client Input Output) :
    sentIn (past ++ [t]) = sentIn past ++ t.output.sent := by
  simp [sentIn]

/-! ### Batch windows -/

/-- The client knows the handles of the alarms that are running. -/
def Watches (c : Client) : Prop := c.alarms.running.map Prod.fst = c.timer.toList

/-- The client knows the handles of the alarms that are running, and one is running exactly while
commands wait. -/
structure Armed (c : Client) : Prop where
  /-- It can clear the alarm. -/
  watches : c.Watches
  /-- There is no alarm for nothing, and nothing waits without one. -/
  timer_eq_none_iff : c.timer = none ↔ c.pending = []

theorem exists_closeWindow (c : Client) :
    ∃ timer alarms, c.closeWindow = { c with timer, alarms } := by
  unfold closeWindow
  split
  · exact ⟨c.timer, c.alarms, rfl⟩
  · exact ⟨_, _, rfl⟩

theorem exists_openWindow (c : Client) (now : Nat) :
    ∃ timer alarms, c.openWindow now = { c with timer, alarms } := by
  obtain ⟨timer, alarms, h⟩ := c.exists_closeWindow
  simp only [openWindow, h]
  exact ⟨_, _, rfl⟩

theorem exists_ensureWindow (c : Client) (now : Nat) :
    ∃ timer alarms, c.ensureWindow now = { c with timer, alarms } := by
  unfold ensureWindow
  split
  · exact c.exists_openWindow now
  · exact ⟨c.timer, c.alarms, rfl⟩

/-- Closing the batch window clears every alarm. -/
theorem Watches.closeWindow (h : c.Watches) :
    c.closeWindow.timer = none ∧ c.closeWindow.alarms.running = [] := by
  unfold Watches at h
  unfold Client.closeWindow
  split
  · rename_i htimer
    rw [htimer] at h
    exact ⟨htimer, List.map_eq_nil_iff.mp h⟩
  · rename_i handle htimer
    rw [htimer] at h
    exact ⟨rfl, Alarms.running_clear_of_toList h⟩

theorem armed_closeWindow (h : c.Watches) (hnone : c.pending = []) : c.closeWindow.Armed := by
  obtain ⟨htimer, hrunning⟩ := h.closeWindow
  have hpending : c.closeWindow.pending = c.pending := by
    obtain ⟨_, _, heq⟩ := c.exists_closeWindow
    rw [heq]
  constructor
  · rw [Watches, htimer, hrunning]
    rfl
  · simp [htimer, hpending, hnone]

theorem armed_openWindow (h : c.Watches) (hsome : c.pending ≠ []) : (c.openWindow now).Armed := by
  obtain ⟨-, hrunning⟩ := h.closeWindow
  have hpending : (c.openWindow now).pending = c.pending := by
    obtain ⟨_, _, heq⟩ := c.exists_openWindow now
    rw [heq]
  constructor
  · simp [Watches, openWindow, Alarms.set, hrunning]
  · rw [hpending]
    simp [openWindow, hsome]

theorem armed_ensureWindow (h : c.Watches) (hsome : c.pending ≠ []) :
    (c.ensureWindow now).Armed := by
  unfold ensureWindow
  split
  · exact armed_openWindow h hsome
  · rename_i htimer
    refine ⟨h, ?_⟩
    rw [Option.isNone_iff_eq_none] at htimer
    simp [htimer, hsome]

/-! ### Sending a batch -/

theorem sendBatch_of_nil (hnone : c.pending = []) : c.sendBatch now = (c.closeWindow, []) := by
  obtain ⟨_, _, heq⟩ := c.exists_closeWindow
  simp [sendBatch, heq, hnone]

/-- One batch is sent, from the front of the commands that wait, and another window begins if that
leaves some over. -/
theorem sendBatch_eq (hsome : c.pending ≠ []) (hconnected : c.connected = true) :
    c.sendBatch now =
      let rest := { c.closeWindow with
        pending := c.pending.drop c.config.maxBatch, unanswered := c.unanswered + 1 }
      (if rest.pending = [] then rest else rest.openWindow now,
        [Batch.pack (c.pending.take c.config.maxBatch)]) := by
  obtain ⟨timer, alarms, heq⟩ := c.exists_closeWindow
  simp [sendBatch, heq, hsome, hconnected]

/-- That changes the windows, the commands that wait and the count of unanswered batches only. -/
theorem exists_sendBatch (hsome : c.pending ≠ []) (hconnected : c.connected = true) (now : Nat) :
    ∃ timer alarms, c.sendBatch now =
      ({ c with timer, alarms, pending := c.pending.drop c.config.maxBatch,
                unanswered := c.unanswered + 1 },
        [Batch.pack (c.pending.take c.config.maxBatch)]) := by
  obtain ⟨timer, alarms, heq⟩ := c.exists_closeWindow
  rw [sendBatch_eq hsome hconnected, heq]
  dsimp only
  split
  · exact ⟨timer, alarms, rfl⟩
  · obtain ⟨timer', alarms', heq'⟩ := exists_openWindow { c with
      timer, alarms, pending := c.pending.drop c.config.maxBatch, unanswered := c.unanswered + 1 } now
    rw [heq']
    exact ⟨timer', alarms', rfl⟩

/-- Sending a batch closes the window, and begins another one if it leaves commands over. -/
theorem armed_sendBatch (h : c.Watches) (hconnected : c.pending ≠ [] → c.connected = true) :
    (c.sendBatch now).1.Armed := by
  by_cases hnone : c.pending = []
  · rw [sendBatch_of_nil hnone]
    exact armed_closeWindow h hnone
  · obtain ⟨htimer, hrunning⟩ := h.closeWindow
    rw [sendBatch_eq hnone (hconnected hnone)]
    dsimp only
    split
    · rename_i hrest
      refine ⟨?_, by simp [htimer, hrest]⟩
      simp [Watches, htimer, hrunning]
    · rename_i hrest
      refine armed_openWindow ?_ hrest
      simp [Watches, htimer, hrunning]

/-! ### Having a proposer to feed -/

@[simp]
theorem connected_closeWindow (c : Client) : c.closeWindow.connected = c.connected := by
  obtain ⟨_, _, heq⟩ := c.exists_closeWindow
  rw [heq]

@[simp]
theorem connected_openWindow (c : Client) (now : Nat) :
    (c.openWindow now).connected = c.connected := by
  obtain ⟨_, _, heq⟩ := c.exists_openWindow now
  rw [heq]

@[simp]
theorem connected_ensureWindow (c : Client) (now : Nat) :
    (c.ensureWindow now).connected = c.connected := by
  obtain ⟨_, _, heq⟩ := c.exists_ensureWindow now
  rw [heq]

@[simp]
theorem connected_sendBatch (c : Client) (now : Nat) :
    (c.sendBatch now).1.connected = c.connected := by
  unfold sendBatch
  dsimp only
  split
  · exact c.connected_closeWindow
  · split <;> simp

@[simp]
theorem connected_connect (c : Client) (now : Nat) : (c.connect now).connected = true := by
  simp only [connect]
  split
  · rfl
  · exact connected_ensureWindow _ now

@[simp]
theorem connected_submit (c : Client) (now : Nat) (command : List UInt8) :
    (c.submit now command).1.connected = c.connected := by
  unfold submit
  dsimp only
  split
  · rfl
  · split <;> simp

@[simp]
theorem connected_flush (c : Client) (now : Nat) : (c.flush now).1.connected = c.connected := by
  unfold flush
  generalize c.pending.length = limit
  induction limit generalizing c with
  | zero => rfl
  | succ limit ih =>
    unfold flushUpTo
    split
    · rfl
    · simp [ih]

@[simp]
theorem connected_fire (c : Client) (now handle : Nat) :
    (c.fire now handle).1.connected = c.connected := by
  unfold fire
  split
  · exact connected_sendBatch _ now
  · rfl

@[simp]
theorem connected_reply (c : Client) (taken : Bool) : (c.reply taken).connected = c.connected := by
  unfold reply
  split <;> rfl

/-! ### Accounts -/

/-- Where the commands are that the client took: in the batches that it sent, or waiting. -/
structure Accounts (config : ClientSettings) (commands : List (Nat × List UInt8))
    (sent : List Value) (c : Client) : Prop where
  /-- It has these settings. -/
  config_eq : c.config = config
  /-- The batches that were sent, and the commands that wait, are the commands in order. -/
  stream : ∃ batches : List (List (List UInt8)), sent = batches.map Batch.pack ∧
    batches.flatten ++ c.pending = commands.map Prod.snd ∧
    ∀ batch ∈ batches, 1 ≤ batch.length ∧ batch.length ≤ config.maxBatch
  /-- They were numbered in order. -/
  ids : commands.map Prod.fst = List.range' 1 c.total
  /-- Commands were taken only with a proposer to feed. -/
  connected : c.pending ≠ [] → c.connected = true
  /-- Every batch was taken or refused, or is not answered yet. -/
  answered : c.proposed + c.rejected + c.unanswered = sent.length

theorem Accounts.windows (h : Accounts config commands sent c) (timer : Option Nat)
    (alarms : Alarms) : Accounts config commands sent { c with timer, alarms } :=
  ⟨h.config_eq, h.stream, h.ids, h.connected, h.answered⟩

theorem Accounts.sendBatch (h : Accounts config commands sent c) (hmax : 1 ≤ config.maxBatch)
    (now : Nat) :
    Accounts config commands (sent ++ (c.sendBatch now).2) (c.sendBatch now).1 := by
  by_cases hnone : c.pending = []
  · rw [sendBatch_of_nil hnone, List.append_nil]
    obtain ⟨timer, alarms, heq⟩ := c.exists_closeWindow
    rw [heq]
    exact h.windows timer alarms
  · obtain ⟨timer, alarms, heq⟩ := exists_sendBatch hnone (h.connected hnone) now
    obtain ⟨batches, hsent, hstream, hbounds⟩ := h.stream
    obtain rfl := h.config_eq
    rw [heq]
    constructor
    · rfl
    · refine ⟨batches ++ [c.pending.take c.config.maxBatch], by simp [hsent], ?_, ?_⟩
      · rw [List.flatten_append, List.append_assoc, List.flatten_singleton,
          List.take_append_drop]
        exact hstream
      · intro batch hmem
        rcases List.mem_append.mp hmem with hmem | hmem
        · exact hbounds batch hmem
        · obtain rfl := List.mem_singleton.mp hmem
          have hpos := List.length_pos_iff.mpr hnone
          rw [List.length_take]
          omega
    · exact h.ids
    · exact fun _ => h.connected hnone
    · have hanswered := h.answered
      rw [List.length_append, List.length_singleton]
      show c.proposed + c.rejected + (c.unanswered + 1) = _
      omega

/-- One more command waits. -/
theorem Accounts.take (h : Accounts config commands sent c) (hconnected : c.connected = true)
    (command : List UInt8) :
    Accounts config (commands ++ [(c.total + 1, command)]) sent
      { c with total := c.total + 1, pending := c.pending ++ [command] } := by
  obtain ⟨batches, hsent, hstream, hbounds⟩ := h.stream
  refine ⟨h.config_eq, ⟨batches, hsent, ?_, hbounds⟩, ?_, fun _ => hconnected, h.answered⟩
  · rw [← List.append_assoc, hstream, List.map_append]
    rfl
  · rw [List.map_append, h.ids, List.range'_concat]
    simp [Nat.add_comm]

/-- Fewer commands wait than make a batch, and they do not wait for ever. -/
structure Orderly (config : ClientSettings) (commands : List (Nat × List UInt8))
    (sent : List Value) (c : Client) : Prop extends Accounts config commands sent c where
  /-- One alarm is running exactly while commands wait. -/
  armed : c.Armed
  /-- They do not make a batch. -/
  pending_lt : c.pending.length < config.maxBatch

/-- If no more commands wait than make a batch, sending a batch leaves none of them. -/
theorem Accounts.orderly_sendBatch (h : Accounts config commands sent c) (hwatches : c.Watches)
    (hmax : 1 ≤ config.maxBatch) (hle : c.pending.length ≤ config.maxBatch) (now : Nat) :
    Orderly config commands (sent ++ (c.sendBatch now).2) (c.sendBatch now).1 ∧
      (c.sendBatch now).1.pending = [] := by
  have hempty : (c.sendBatch now).1.pending = [] := by
    by_cases hnone : c.pending = []
    · obtain ⟨_, _, heq⟩ := c.exists_closeWindow
      rw [sendBatch_of_nil hnone, heq]
      exact hnone
    · obtain ⟨_, _, heq⟩ := exists_sendBatch hnone (h.connected hnone) now
      rw [heq]
      exact List.drop_eq_nil_of_le (h.config_eq ▸ hle)
  refine ⟨⟨h.sendBatch hmax now, armed_sendBatch hwatches h.connected, ?_⟩, hempty⟩
  rw [hempty]
  exact hmax

theorem orderly_start (hmax : 1 ≤ config.maxBatch) : Orderly config [] [] { config } where
  config_eq := rfl
  stream := ⟨[], rfl, rfl, by simp⟩
  ids := rfl
  connected h := absurd rfl h
  answered := rfl
  armed := ⟨rfl, fun _ => rfl, fun _ => rfl⟩
  pending_lt := hmax

/-! ### Steps -/

theorem Orderly.connect (h : Orderly config commands sent c) (now : Nat) :
    Orderly config commands sent (c.connect now) := by
  have hconnected : Accounts config commands sent { c with connected := true } :=
    ⟨h.config_eq, h.stream, h.ids, fun _ => rfl, h.answered⟩
  simp only [Client.connect, List.isEmpty_iff]
  split
  · exact ⟨hconnected, ⟨h.armed.watches, h.armed.timer_eq_none_iff⟩, h.pending_lt⟩
  · rename_i hsome
    obtain ⟨timer, alarms, heq⟩ := exists_ensureWindow { c with connected := true } now
    refine ⟨?_, armed_ensureWindow h.armed.watches hsome, ?_⟩
    · rw [heq]
      exact hconnected.windows timer alarms
    · rw [heq]
      exact h.pending_lt

/-- A command is taken exactly if there is a proposer to feed; then it waits, or it completes a
batch. -/
theorem Orderly.submit (h : Orderly config commands sent c) (hmax : 1 ≤ config.maxBatch) {now : Nat}
    {command : List UInt8} {answer : Except Fault Nat} {values : List Value}
    (hsubmit : c.submit now command = (c', answer, values)) :
    (c.connected = false ∧ c' = c ∧ values = [] ∧ ∃ fault, answer = .error fault) ∨
      c.connected = true ∧ answer = .ok (c.total + 1) ∧
        Orderly config (commands ++ [(c.total + 1, command)]) (sent ++ values) c' := by
  unfold Client.submit at hsubmit
  split at hsubmit
  · rename_i hconnected
    cases hsubmit
    exact Or.inl ⟨by simpa using hconnected, rfl, rfl, _, rfl⟩
  rename_i hconnected
  have hconnected : c.connected = true := by simpa using hconnected
  refine Or.inr ⟨hconnected, ?_⟩
  have htaken := h.take hconnected command
  have hlength := h.pending_lt
  have hconfig := h.config_eq
  dsimp only at hsubmit
  split at hsubmit
  · cases hsubmit
    refine ⟨rfl, (htaken.orderly_sendBatch h.armed.watches hmax ?_ now).1⟩
    simp only [List.length_append, List.length_singleton]
    omega
  · rename_i hroom
    cases hsubmit
    simp only [hconfig, List.length_append, List.length_singleton] at hroom
    obtain ⟨timer, alarms, heq⟩ := exists_ensureWindow
      { c with total := c.total + 1, pending := c.pending ++ [command] } now
    refine ⟨rfl, ⟨?_, armed_ensureWindow h.armed.watches (by simp), ?_⟩⟩
    · rw [heq, List.append_nil]
      exact htaken.windows timer alarms
    · rw [heq, List.length_append, List.length_singleton]
      omega

theorem Orderly.flush (h : Orderly config commands sent c) (hmax : 1 ≤ config.maxBatch)
    (now : Nat) :
    Orderly config commands (sent ++ (c.flush now).2) (c.flush now).1 := by
  unfold Client.flush
  generalize c.pending.length = limit
  induction limit generalizing c sent with
  | zero =>
    rw [flushUpTo, List.append_nil]
    exact h
  | succ limit ih =>
    unfold flushUpTo
    split
    · rw [List.append_nil]
      exact h
    · have hsent := (h.orderly_sendBatch h.armed.watches hmax (Nat.le_of_lt h.pending_lt) now).1
      have hrest := ih hsent
      rw [List.append_assoc] at hrest
      exact hrest

/-- An alarm that is running is that of the batch window, and closes it. -/
theorem Watches.fire_eq (h : c.Watches) {handle : Nat} (hrunning : c.alarms.isRunning handle = true) :
    c.fire now handle = c.closeWindow.sendBatch now := by
  have htimer : c.timer = some handle := by
    rw [Alarms.isRunning_iff, h] at hrunning
    exact Option.mem_toList.mp hrunning
  simp only [Client.fire, hrunning, if_true, Client.closeWindow, htimer]

/-- When the alarm goes off, everything that waits is sent. -/
theorem Orderly.fire_of_running (h : Orderly config commands sent c) (hmax : 1 ≤ config.maxBatch)
    {handle : Nat} (hrunning : c.alarms.isRunning handle = true) (now : Nat) :
    Orderly config commands (sent ++ (c.fire now handle).2) (c.fire now handle).1 ∧
      (c.fire now handle).1.pending = [] := by
  obtain ⟨htimer, hnone⟩ := h.armed.watches.closeWindow
  rw [h.armed.watches.fire_eq hrunning]
  obtain ⟨timer, alarms, heq⟩ := c.exists_closeWindow
  rw [heq] at htimer hnone ⊢
  refine (h.windows timer alarms).orderly_sendBatch ?_ hmax (Nat.le_of_lt h.pending_lt) now
  rw [Watches, htimer, hnone]
  rfl

theorem Orderly.fire (h : Orderly config commands sent c) (hmax : 1 ≤ config.maxBatch)
    (now handle : Nat) :
    Orderly config commands (sent ++ (c.fire now handle).2) (c.fire now handle).1 := by
  by_cases hrunning : c.alarms.isRunning handle = true
  · exact (h.fire_of_running hmax hrunning now).1
  · rw [Client.fire, if_neg hrunning, List.append_nil]
    exact h

theorem Orderly.reply (h : Orderly config commands sent c) (taken : Bool) :
    Orderly config commands sent (c.reply taken) := by
  unfold Client.reply
  split
  · exact h
  · refine ⟨⟨h.config_eq, h.stream, h.ids, h.connected, ?_⟩,
      ⟨h.armed.watches, h.armed.timer_eq_none_iff⟩, h.pending_lt⟩
    have hanswered := h.answered
    cases taken <;> simp <;> omega

/-- **The accounts are kept** in every step. -/
theorem Orderly.act (h : Orderly config commands sent c) (hmax : 1 ≤ config.maxBatch)
    (hact : c.act x = .ok (c', o)) :
    Orderly config (commands ++ (taken? ⟨c, x, c', o⟩).toList) (sent ++ o.sent) c' := by
  have hstep : c.step x = (c', o) := Except.ok.inj hact
  cases x with
  | connect now =>
    cases hstep
    simpa [taken?] using h.connect now
  | submit now command =>
    rcases hsubmit : c.submit now command with ⟨c₁, answer, values⟩
    simp only [step, hsubmit] at hstep
    cases hstep
    rcases h.submit hmax hsubmit with ⟨-, rfl, rfl, fault, rfl⟩ | ⟨-, rfl, htaken⟩
    · simpa [taken?] using h
    · simpa [taken?] using htaken
  | flush now =>
    have horderly := h.flush hmax now
    rcases hflush : c.flush now with ⟨c₁, values⟩
    simp only [step, hflush] at hstep horderly
    cases hstep
    simpa [taken?] using horderly
  | fire now handle =>
    have horderly := h.fire hmax now handle
    rcases hfire : c.fire now handle with ⟨c₁, values⟩
    simp only [step, hfire] at hstep horderly
    cases hstep
    simpa [taken?] using horderly
  | reply taken =>
    cases hstep
    simpa [taken?] using h.reply taken

/-- A command that waits is sent when the alarm goes off that is running. -/
theorem Orderly.exists_alarm (h : Orderly config commands sent c) (hmax : 1 ≤ config.maxBatch)
    (hsome : c.pending ≠ []) : ∃ handle deadline,
      c.timer = some handle ∧ c.alarms.running = [(handle, deadline)] ∧
        ∀ now, ∃ c', c.fire now handle = (c', [Batch.pack c.pending]) ∧ c'.pending = [] := by
  obtain ⟨handle, htimer⟩ := Option.ne_none_iff_exists'.mp
    fun hnone => hsome (h.armed.timer_eq_none_iff.mp hnone)
  have hwatches : c.alarms.running.map Prod.fst = [handle] := by
    rw [h.armed.watches, htimer]
    rfl
  obtain ⟨⟨handle, deadline⟩, halarm, rfl⟩ := List.map_eq_singleton_iff.mp hwatches
  have hrunning : c.alarms.isRunning handle = true := by simp [Alarms.isRunning, halarm]
  refine ⟨handle, deadline, htimer, halarm, fun now => ?_⟩
  refine ⟨(c.fire now handle).1, Prod.ext rfl ?_, (h.fire_of_running hmax hrunning now).2⟩
  obtain ⟨timer, alarms, hclosed⟩ := c.exists_closeWindow
  obtain ⟨_, _, hsent⟩ := exists_sendBatch (c := { c with timer, alarms }) hsome
    (h.connected hsome) now
  have hall : c.pending.take c.config.maxBatch = c.pending :=
    List.take_of_length_le (h.config_eq ▸ Nat.le_of_lt h.pending_lt)
  rw [h.armed.watches.fire_eq hrunning, hclosed, hsent, hall]

/-! ### Runs -/

theorem orderly_of_runs (hmax : 1 ≤ config.maxBatch) (h : Runs act { config } c past) :
    Orderly config (taken past) (sentIn past) c := by
  induction h with
  | nil => exact orderly_start hmax
  | step _ act_eq ih =>
    rw [taken_append_singleton, sentIn_append_singleton]
    exact ih.act hmax act_eq

/-- A command is taken exactly if there is a proposer to feed. -/
theorem isSome_taken?_iff {command : List UInt8} (h : c.act (.submit now command) = .ok (c', o)) :
    (taken? ⟨c, .submit now command, c', o⟩).isSome = true ↔ c.connected = true := by
  have hstep : c.step (.submit now command) = (c', o) := Except.ok.inj h
  rcases hsubmit : c.submit now command with ⟨c₁, answer, values⟩
  simp only [step, hsubmit] at hstep
  cases hstep
  unfold submit at hsubmit
  split at hsubmit
  · rename_i hconnected
    cases hsubmit
    simpa [taken?] using hconnected
  · rename_i hconnected
    dsimp only at hsubmit
    split at hsubmit <;> cases hsubmit <;> simpa [taken?] using hconnected

/-- A client has a proposer to feed from the time on that it got one. -/
theorem connected_of_act (h : c.act x = .ok (c', o)) :
    c'.connected = true ↔ c.connected = true ∨ ∃ now, x = .connect now := by
  have hstep : (c.step x).1 = c' := congrArg Prod.fst (Except.ok.inj h)
  cases x with
  | connect now =>
    obtain rfl : c.connect now = c' := hstep
    simp
  | submit now command =>
    obtain rfl : (c.submit now command).1 = c' := hstep
    simp
  | flush now =>
    obtain rfl : (c.flush now).1 = c' := hstep
    simp
  | fire now handle =>
    obtain rfl : (c.fire now handle).1 = c' := hstep
    simp
  | reply taken =>
    obtain rfl : c.reply taken = c' := hstep
    simp

theorem connected_of_runs (h : Runs act { config } c past) :
    c.connected = true ↔ ∃ t ∈ past, ∃ now, t.input = .connect now := by
  induction h with
  | nil => simp
  | step _ act_eq ih =>
    rw [connected_of_act act_eq, ih]
    simp only [List.mem_append, List.mem_singleton, or_and_right, exists_or, exists_eq_left]

/-- **A client keeps the stream of commands**, whatever happens to it. The batches that it sent are
unpacked to the commands that it took, in order, up to those that wait; these commands were numbered from
1 on. No batch is empty or too large, and fewer commands wait than make a batch. While some wait, one
alarm is running, and when it goes off they are sent; while none waits, there is no alarm. Every batch
was taken or refused, or is not answered yet. And a command is taken exactly if there was a proposer to
feed. That words hold the size of a batch and the lengths of the commands matters for unpacking only. -/
theorem keeps_command_stream (hmax : 1 ≤ config.maxBatch) (hword : config.maxBatch < Word.size)
    (h : Runs act { config } c past)
    (hlength : ∀ command ∈ (taken past).map Prod.snd, command.length < Word.size) :
    (∃ batches : List (List (List UInt8)), (sentIn past).map Batch.unpack = batches.map Except.ok ∧
      batches.flatten ++ c.pending = (taken past).map Prod.snd ∧
      ∀ batch ∈ batches, 1 ≤ batch.length ∧ batch.length ≤ config.maxBatch) ∧
    (taken past).map Prod.fst = List.range' 1 (taken past).length ∧
    c.pending.length < config.maxBatch ∧
    (c.pending = [] → c.alarms.running = []) ∧
    (c.pending ≠ [] → ∃ handle deadline,
      c.timer = some handle ∧ c.alarms.running = [(handle, deadline)] ∧
        ∀ now, ∃ c', c.fire now handle = (c', [Batch.pack c.pending]) ∧ c'.pending = []) ∧
    c.proposed + c.rejected + c.unanswered = (sentIn past).length ∧
    ∀ before t later, past = before ++ t :: later → ∀ now command, t.input = .submit now command →
      ((taken? t).isSome = true ↔ ∃ u ∈ before, ∃ now, u.input = .connect now) := by
  have horderly := orderly_of_runs hmax h
  obtain ⟨batches, hsent, hstream, hbounds⟩ := horderly.stream
  refine ⟨⟨batches, ?_, hstream, hbounds⟩, ?_, horderly.pending_lt, fun hnone => ?_,
    horderly.exists_alarm hmax, horderly.answered, ?_⟩
  · rw [hsent, List.map_map]
    refine List.map_congr_left fun batch hmem => ?_
    apply Batch.unpack_pack (Nat.lt_of_le_of_lt (hbounds batch hmem).2 hword)
    intro command hcommand
    apply hlength
    rw [← hstream]
    exact List.mem_append_left _ (List.mem_flatten_of_mem hmem hcommand)
  · have htotal := congrArg List.length horderly.ids
    rw [List.length_map, List.length_range'] at htotal
    rw [htotal, horderly.ids]
  · have hwatches := horderly.armed.watches
    rw [Watches, horderly.armed.timer_eq_none_iff.mpr hnone] at hwatches
    exact List.map_eq_nil_iff.mp hwatches
  · rintro before ⟨b, x, a, o⟩ later rfl now command rfl
    obtain ⟨hbefore, hact⟩ := h.split
    rw [isSome_taken?_iff hact]
    exact connected_of_runs hbefore

/-- With batches of two at most. The first command is refused. Of the others one goes out when its
window ends, two because they are enough for a batch, and one because somebody asks for it; an alarm
that was cleared does not go off. The last command waits, and one batch is not answered yet. -/
theorem keeps_command_stream_of_three_batches : ∃ c past,
    Runs act { config := ⟨10, 2⟩ } c past ∧ 1 ≤ 2 ∧ 2 < Word.size ∧
    (∀ command ∈ (taken past).map Prod.snd, command.length < Word.size) ∧
    taken past = [(1, [97]), (2, []), (3, [99, 100]), (4, [101]), (5, [102])] ∧
    (sentIn past).map Batch.unpack = [.ok [[97]], .ok [[], [99, 100]], .ok [[101]]] ∧
    c.pending = [[102]] ∧ c.status = ⟨true, 1, 5, 1, 1⟩ ∧
    c.proposed + c.rejected + c.unanswered = 3 ∧
    ∃ handle deadline, c.timer = some handle ∧ c.alarms.running = [(handle, deadline)] ∧
      ∀ now, ∃ c', c.fire now handle = (c', [Batch.pack [[102]]]) ∧ c'.pending = [] := by
  obtain ⟨c, past, h, hlength, htaken, hsent, hpending, hstatus, hthree⟩ := Runs.exists_of_replay act
    { config := ⟨10, 2⟩ }
    [.submit 0 [96], .connect 0, .submit 1 [97], .fire 11 0, .submit 12 [], .reply false,
      .submit 13 [99, 100], .fire 22 1, .submit 23 [101], .connect 24, .reply true, .flush 25,
      .fire 33 2, .submit 34 [102], .fire 35 7]
    (fun c past => (∀ command ∈ (taken past).map Prod.snd, command.length < Word.size) ∧
      taken past = [(1, [97]), (2, []), (3, [99, 100]), (4, [101]), (5, [102])] ∧
      sentIn past = [Batch.pack [[97]], Batch.pack [[], [99, 100]], Batch.pack [[101]]] ∧
      c.pending = [[102]] ∧ c.status = ⟨true, 1, 5, 1, 1⟩ ∧ (sentIn past).length = 3)
    (by decide +kernel)
  obtain ⟨-, -, -, -, halarm, hanswered, -⟩ :=
    keeps_command_stream (by decide) (by decide) h hlength
  refine ⟨c, past, h, by decide, by decide, hlength, htaken, ?_, hpending, hstatus,
    hanswered.trans hthree, ?_⟩
  · rw [hsent]
    rfl
  · rw [← hpending]
    exact halarm (by simp [hpending])

end Client

end ReplicatedLog
