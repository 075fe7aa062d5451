import ReplicatedLog.Proofs.Encodings
import ReplicatedLog.Proofs.Sizes
import ReplicatedLog.Wire.Frame

/-!
# Frames on a broken stream

What reading frame after frame gives is told by the frames alone (`Wire.Unframes`); the bound on their
number is never reached (`Wire.readFrames_eq_iff`).

Where frames are written there may not be room for them. A frame is then cut off somewhere, in its
header or behind it, and nothing is written after it (`Wire.Torn`). A reader takes every whole frame for
the message that was written (`Wire.readFrame_frame`), and comes to the end of the stream in a frame that
was cut off (`Wire.readFrame_of_torn`). So it gets exactly the messages that were written, wherever the
stream broke (`Wire.readFrames_writeFrames`).
-/

namespace ReplicatedLog

namespace Wire

variable {s s' : Sink} {e : Envelope} {es : List Envelope} {fault : Fault}
  {bytes part rest stream stream' : List UInt8} {result : Except Fault Unit}
  {results : List (Except Fault Unit)}

/-! ### Reading frame after frame -/

/-- Frame after frame read off the stream gives the messages, and then the fault; `rest` is left. -/
inductive Unframes : List UInt8 → List Envelope → Fault → List UInt8 → Prop
  /-- There is no frame to be read. -/
  | stop {stream rest : List UInt8} {fault : Fault} (read_eq : readFrame stream = (.error fault, rest)) :
    Unframes stream [] fault rest
  /-- A frame is read. -/
  | next {stream stream' rest : List UInt8} {e : Envelope} {es : List Envelope} {fault : Fault}
    (read_eq : readFrame stream = (.ok e, stream')) (later : Unframes stream' es fault rest) :
    Unframes stream (e :: es) fault rest

theorem takeBytes_append (bytes rest : List UInt8) :
    takeBytes bytes.length (bytes ++ rest) = (.ok bytes, rest) := by
  rw [takeBytes, readBytes_append]

theorem takeBytes_of_lt {count : Nat} (h : stream.length < count) :
    takeBytes count stream = (.error (.io .unexpectedEnd), []) := by
  have hshort : ¬ (stream.take count).length = count := by
    rw [List.length_take]
    omega
  have hread : readBytes count stream = none := if_neg hshort
  rw [takeBytes, hread]

/-- Bytes can be taken off the stream if there are enough. -/
theorem takeBytes_cases (count : Nat) (stream : List UInt8) :
    (∃ bytes rest, bytes.length = count ∧ stream = bytes ++ rest ∧
      takeBytes count stream = (.ok bytes, rest)) ∨
    takeBytes count stream = (.error (.io .unexpectedEnd), []) := by
  by_cases h : stream.length < count
  · exact Or.inr (takeBytes_of_lt h)
  · left
    have hlength : (stream.take count).length = count := by
      rw [List.length_take]
      omega
    have htake := takeBytes_append (stream.take count) (stream.drop count)
    rw [List.take_append_drop, hlength] at htake
    exact ⟨_, _, hlength, (List.take_append_drop count stream).symm, htake⟩

/-- A frame takes bytes off the stream. -/
theorem length_lt_of_readFrame (h : readFrame stream = (.ok e, stream')) :
    stream'.length < stream.length := by
  unfold readFrame at h
  rcases takeBytes_cases 4 stream with ⟨header, behind, hheader, rfl, htake⟩ | htake
  · rw [htake] at h
    dsimp only at h
    split at h
    · cases h
    split at h
    · cases h
    rcases takeBytes_cases (ofLittleEndian header.reverse) behind with
      ⟨content, rest, -, rfl, htake'⟩ | htake'
    · rw [htake'] at h
      obtain ⟨-, rfl⟩ := Prod.mk.inj h
      simp only [List.length_append]
      omega
    · rw [htake'] at h
      cases h
  · rw [htake] at h
    cases h

/-- A bound beyond the length of the stream makes no difference. -/
theorem unframes_readFramesUpTo {limit : Nat} (h : stream.length < limit) :
    Unframes stream (readFramesUpTo limit stream).1 (readFramesUpTo limit stream).2.1
      (readFramesUpTo limit stream).2.2 := by
  induction limit generalizing stream with
  | zero => exact absurd h (Nat.not_lt_zero _)
  | succ limit ih =>
    unfold readFramesUpTo
    cases hread : readFrame stream with
    | mk result stream' =>
      cases result with
      | error fault => exact .stop hread
      | ok e =>
        have hshorter := length_lt_of_readFrame hread
        exact .next hread (ih (by omega))

theorem Unframes.unique {es' : List Envelope} {fault' : Fault} {rest' : List UInt8}
    (h : Unframes stream es fault rest) (h' : Unframes stream es' fault' rest') :
    es = es' ∧ fault = fault' ∧ rest = rest' := by
  induction h generalizing es' with
  | stop read_eq =>
    cases h' with
    | stop read_eq' =>
      rw [read_eq] at read_eq'
      cases read_eq'
      exact ⟨rfl, rfl, rfl⟩
    | next read_eq' =>
      rw [read_eq] at read_eq'
      cases read_eq'
  | next read_eq _ ih =>
    cases h' with
    | stop read_eq' =>
      rw [read_eq] at read_eq'
      cases read_eq'
    | next read_eq' later' =>
      rw [read_eq] at read_eq'
      cases read_eq'
      obtain ⟨rfl, rfl, rfl⟩ := ih later'
      exact ⟨rfl, rfl, rfl⟩

/-- Reading all frames is reading frame after frame. -/
theorem readFrames_eq_iff :
    readFrames stream = (es, fault, rest) ↔ Unframes stream es fault rest := by
  have hreads := unframes_readFramesUpTo (Nat.lt_succ_self stream.length)
  constructor
  · intro h
    rw [show readFramesUpTo (stream.length + 1) stream = (es, fault, rest) from h] at hreads
    exact hreads
  · intro h
    obtain ⟨hes, hfault, hrest⟩ := hreads.unique h
    exact Prod.ext hes (Prod.ext hfault hrest)

/-! ### Whole frames and torn ones -/

/-- The frame of an encoded message. -/
def frame (bytes : List UInt8) : List UInt8 := frameHeader bytes.length ++ bytes

/-- The part of a frame that was cut off, for a message within the limit. -/
def Torn (part : List UInt8) : Prop :=
  ∃ bytes, bytes.length ≤ maxMessageSize ∧ part <+: frame bytes ∧ part ≠ frame bytes

theorem length_frameHeader (length : Nat) : (frameHeader length).length = 4 := by
  simp [frameHeader]

theorem torn_nil : Torn [] := by
  refine ⟨[], Nat.zero_le _, List.nil_prefix, fun h => ?_⟩
  have hlength := congrArg List.length h
  rw [frame, List.append_nil, length_frameHeader] at hlength
  cases hlength

/-- The header of a message within the limit tells the number of its bytes. -/
theorem takeBytes_frameHeader (rest : List UInt8) {length : Nat} (h : length ≤ maxMessageSize) :
    takeBytes 4 (frameHeader length ++ rest) = (.ok (frameHeader length), rest) ∧
      ofLittleEndian (frameHeader length).reverse = length := by
  constructor
  · rw [← length_frameHeader length]
    exact takeBytes_append _ _
  · rw [frameHeader, List.reverse_reverse]
    exact ofLittleEndian_littleEndian 4 length (Nat.lt_of_le_of_lt h (by decide))

/-- A message takes at least a byte. -/
theorem length_writeEnvelope_pos (e : Envelope) : 0 < (writeEnvelope e).length := by
  have hsource := (length_writeNat e.source).1
  rw [writeEnvelope, List.length_append]
  omega

/-- **A whole frame is read** as the message that was written, whatever follows it. -/
theorem readFrame_frame (he : e.InWords) (hencode : encode e = .ok bytes) (rest : List UInt8) :
    readFrame (frame bytes ++ rest) = (.ok e, rest) := by
  obtain ⟨rfl, hsize⟩ := encode_eq_ok_iff.mp hencode
  obtain ⟨hheader, hlength⟩ := takeBytes_frameHeader (writeEnvelope e ++ rest) hsize
  have hpos := length_writeEnvelope_pos e
  have hdecode : decode (writeEnvelope e) = .ok e := by
    refine decode_eq_ok_iff.mpr ⟨hsize, [], ?_⟩
    simpa using takes_envelope he []
  unfold readFrame frame
  rw [List.append_assoc, hheader]
  dsimp only
  rw [hlength, if_neg (Nat.not_lt.mpr hsize), if_neg (Nat.ne_of_gt hpos), takeBytes_append]
  dsimp only
  rw [hdecode]

/-- **A torn frame is the end** of the stream. -/
theorem readFrame_of_torn (h : Torn part) :
    readFrame part = (.error (.io .unexpectedEnd), []) := by
  obtain ⟨bytes, hsize, hpart, hne⟩ := h
  by_cases hshort : part.length < 4
  · rw [readFrame, takeBytes_of_lt hshort]
  · -- the header is whole, but the content is not
    have hbegins : frameHeader bytes.length <+: part := by
      refine List.prefix_of_prefix_length_le (List.prefix_append _ _) hpart ?_
      rw [length_frameHeader]
      omega
    obtain ⟨content, rfl⟩ := hbegins
    have hcontent : content <+: bytes := (List.prefix_append_right_inj _).mp hpart
    have hlt : content.length < bytes.length := by
      refine Nat.lt_of_le_of_ne hcontent.length_le fun heq => hne ?_
      rw [frame, hcontent.eq_of_length heq]
    obtain ⟨hheader, hlength⟩ := takeBytes_frameHeader content hsize
    unfold readFrame
    rw [hheader]
    dsimp only
    rw [hlength, if_neg (Nat.not_lt.mpr hsize), if_neg (Nat.ne_of_gt (Nat.zero_lt_of_lt hlt)),
      takeBytes_of_lt hlt]

/-! ### Writing -/

/-- Bytes are written as far as there is room for them. -/
theorem put_cases (s : Sink) (bytes : List UInt8) :
    (∃ s', s.put bytes = (s', .ok ()) ∧ s'.written = s.written ++ bytes) ∨
    ∃ s' part, s.put bytes = (s', .error (.io .writeZero)) ∧ s'.written = s.written ++ part ∧
      part <+: bytes ∧ part ≠ bytes := by
  unfold Sink.put
  cases s.room with
  | none => exact Or.inl ⟨_, rfl, rfl⟩
  | some room =>
    by_cases hroom : bytes.length ≤ room
    · left
      refine ⟨_, Prod.ext rfl (if_pos hroom), ?_⟩
      rw [List.take_of_length_le hroom]
    · right
      refine ⟨_, bytes.take room, Prod.ext rfl (if_neg hroom), rfl, List.take_prefix room bytes, ?_⟩
      intro heq
      have hlength := congrArg List.length heq
      rw [List.length_take] at hlength
      omega

/-- A frame is written as a whole, or it fails and a torn one is left. -/
theorem writeFrame_cases (s : Sink) (e : Envelope) :
    (∃ s' bytes, writeFrame s e = (s', .ok ()) ∧ encode e = .ok bytes ∧
      s'.written = s.written ++ frame bytes) ∨
    ∃ s' fault part, writeFrame s e = (s', .error fault) ∧ s'.written = s.written ++ part ∧
      Torn part := by
  unfold writeFrame
  cases hencode : encode e with
  | error fault => exact Or.inr ⟨s, fault, [], rfl, (List.append_nil _).symm, torn_nil⟩
  | ok bytes =>
    have hsize := (encode_eq_ok_iff.mp hencode).2
    dsimp only
    rcases put_cases s (frameHeader bytes.length) with
      ⟨s₁, hput, hwritten⟩ | ⟨s₁, part, hput, hwritten, hpart, hne⟩
    · rw [hput]
      dsimp only
      rcases put_cases s₁ bytes with ⟨s₂, hput', hwritten'⟩ | ⟨s₂, part, hput', hwritten', hpart, hne⟩
      · refine Or.inl ⟨s₂, bytes, hput', rfl, ?_⟩
        rw [hwritten', hwritten, List.append_assoc, frame]
      · refine Or.inr ⟨s₂, _, frameHeader bytes.length ++ part, hput', ?_, bytes, hsize, ?_, ?_⟩
        · rw [hwritten', hwritten, List.append_assoc]
        · exact (List.prefix_append_right_inj _).mpr hpart
        · exact fun heq => hne (List.append_cancel_left heq)
    · rw [hput]
      refine Or.inr ⟨s₁, _, part, rfl, hwritten, bytes, hsize, ?_, fun heq => ?_⟩
      · exact hpart.trans (List.prefix_append _ _)
      · -- it is shorter than the header
        have hle := hpart.length_le
        have hlength := congrArg List.length heq
        rw [frame, List.length_append] at hlength
        exact hne (hpart.eq_of_length (by omega))

/-- The messages whose frames were written as a whole. -/
def accepted (es : List Envelope) (results : List (Except Fault Unit)) : List Envelope :=
  (es.zip results).filterMap fun (e, result) => if result.isOk then some e else none

/-- Frames that are written behind others are read as the messages that were accepted. -/
theorem unframes_of_writeFrames (hes : ∀ e ∈ es, e.InWords)
    (h : writeFrames s es = (s', results)) : ∃ tail, s'.written = s.written ++ tail ∧
      Unframes tail (accepted es results) (.io .unexpectedEnd) [] := by
  induction es generalizing s results with
  | nil =>
    cases h
    exact ⟨[], (List.append_nil _).symm, .stop (readFrame_of_torn torn_nil)⟩
  | cons e es ih =>
    obtain ⟨he, hes⟩ := List.forall_mem_cons.mp hes
    unfold writeFrames at h
    rcases writeFrame_cases s e with
      ⟨s₁, bytes, hwrite, hencode, hwritten⟩ | ⟨s₁, fault, part, hwrite, hwritten, htorn⟩
    · rw [hwrite] at h
      dsimp only at h
      cases hrest : writeFrames s₁ es with
      | mk s₂ results₂ =>
        rw [hrest] at h
        cases h
        obtain ⟨tail, htail, hunframes⟩ := ih hes hrest
        refine ⟨frame bytes ++ tail, ?_, .next (readFrame_frame he hencode tail) hunframes⟩
        rw [htail, hwritten, List.append_assoc]
    · rw [hwrite] at h
      cases h
      refine ⟨part, hwritten, ?_⟩
      have hnone : accepted (e :: es) [.error fault] = [] := by
        simp [accepted, Except.isOk, Except.toBool]
      rw [hnone]
      exact .stop (readFrame_of_torn htorn)

/-- **Frames survive a broken stream.** Messages are written, frame after frame, where there is room for
`capacity` bytes, up to the first that fails: because it is beyond the limit, or because the room is used
up. Then reading frame after frame gives exactly the messages whose frames were written, in order, and
after them the end of the stream. -/
theorem readFrames_writeFrames (hes : ∀ e ∈ es, e.InWords) (capacity : Nat)
    (h : writeFrames { room := some capacity } es = (s, results)) :
    readFrames s.written = (accepted es results, .io .unexpectedEnd, []) := by
  obtain ⟨tail, htail, hunframes⟩ := unframes_of_writeFrames hes h
  rw [List.nil_append] at htail
  rw [htail]
  exact readFrames_eq_iff.mpr hunframes

/-- Where there is room for 20 bytes, the first of three frames is written in 10 bytes and the second is
cut off in its last number. The first message is read, and then the end of the stream. -/
theorem readFrames_writeFrames_of_cut : ∃ (es : List Envelope) (s : Sink)
    (results : List (Except Fault Unit)),
    es = [⟨7, .prepare ⟨1, ⟨2, 3⟩, 4⟩⟩, ⟨8, .prepare ⟨1, ⟨2, 3⟩, 300⟩⟩, ⟨9, .prepare ⟨1, ⟨2, 3⟩, 5⟩⟩] ∧
    (∀ e ∈ es, e.InWords) ∧ writeFrames { room := some 20 } es = (s, results) ∧
    s.written = [0, 0, 0, 6, 7, 0, 1, 2, 3, 4, 0, 0, 0, 8, 8, 0, 1, 2, 3, 251] ∧
    results.map Except.isOk = [true, false] ∧
    readFrames s.written = ([⟨7, .prepare ⟨1, ⟨2, 3⟩, 4⟩⟩], .io .unexpectedEnd, []) := by
  let es : List Envelope :=
    [⟨7, .prepare ⟨1, ⟨2, 3⟩, 4⟩⟩, ⟨8, .prepare ⟨1, ⟨2, 3⟩, 300⟩⟩, ⟨9, .prepare ⟨1, ⟨2, 3⟩, 5⟩⟩]
  have hes : ∀ e ∈ es, e.InWords := by
    simp [es, Envelope.InWords, Message.InWords, Round.InWords, Word.size]
  let written := writeFrames { room := some 20 } es
  have hresults : written.2.map Except.isOk = [true, false] := by decide +kernel
  have haccepted : accepted es written.2 = [⟨7, .prepare ⟨1, ⟨2, 3⟩, 4⟩⟩] := by decide +kernel
  have hwrite : writeFrames { room := some 20 } es = (written.1, written.2) := rfl
  have hread := readFrames_writeFrames hes 20 hwrite
  rw [haccepted] at hread
  exact ⟨es, written.1, written.2, rfl, hes, rfl, by decide +kernel, hresults, hread⟩

end Wire

end ReplicatedLog
