import CacheForge.Library.Lines
import CacheForge.Protocol.Parser

namespace CacheForge

structure Connection where
  fd : Nat
  readBuffer : Str
  writeBuffer : Str
  hasError : Bool
  inFlight : Bool
  deriving DecidableEq, Repr

def readBufferSize : Nat := 4096

inductive Received where
  | bytes (chunk : Str)
  | eof
  | again
  | error
  deriving DecidableEq, Repr

def Received.possible : Received → Bool
  | .bytes chunk => decide (chunk ≠ [] ∧ chunk.length ≤ readBufferSize)
  | _ => true

inductive Sent where
  | bytes (count : Nat)
  | again
  | error
  deriving DecidableEq, Repr

def Sent.possible (offered : Str) : Sent → Bool
  | .bytes count => decide (0 < count ∧ count ≤ offered.length)
  | _ => true

def stripCr (cmd : Str) : Str :=
  if cmd.getLast? = some '\r' then cmd.dropLast else cmd

def pushCommand (cmd : Str) (commands : List Str) : List Str :=
  if stripCr cmd = [] then commands else stripCr cmd :: commands

def extractCommands (buffer : Str) : List Str × Str :=
  if _h : '\n' ∈ buffer then
    let r := extractCommands (buffer.dropWhile (fun c => c ≠ '\n')).tail
    (pushCommand (buffer.takeWhile (fun c => c ≠ '\n')) r.1, r.2)
  else ([], buffer)
termination_by buffer.length
decreasing_by
  have hd := (List.dropWhile_suffix (l := buffer) (fun c => c ≠ '\n')).length_le
  have hpos := List.length_pos_of_mem _h
  simp only [List.length_tail] at hd ⊢
  omega

namespace Connection

def create (fd : Nat) : Connection := ⟨fd, [], [], false, false⟩

def fail (c : Connection) : Connection := { c with hasError := true }

def readAndParse (o : Received) (c : Connection) : List Str × Connection :=
  match o with
  | .bytes chunk =>
      let r := extractCommands (c.readBuffer ++ chunk)
      (r.1, { c with readBuffer := r.2 })
  | .eof => ([], c.fail)
  | .again => ([], c)
  | .error => ([], c.fail)

def queueResponse (response : Str) (c : Connection) : Connection :=
  { c with writeBuffer := c.writeBuffer ++ response }

def flushWriteBuffer (o : Sent) (c : Connection) : Bool × Connection :=
  if c.writeBuffer = [] then (true, c)
  else match o with
    | .bytes count => (decide (c.writeBuffer.drop count = []),
        { c with writeBuffer := c.writeBuffer.drop count })
    | .again => (false, c)
    | .error => (false, c.fail)

def wantWrite (c : Connection) : Bool := decide (c.writeBuffer ≠ [])

def trySetInFlight (c : Connection) : Bool × Connection := (!c.inFlight, { c with inFlight := true })

def clearInFlight (c : Connection) : Connection := { c with inFlight := false }

end Connection

inductive Progress where
  | running (cmd : Command)
  | sending (response : Str) (totalSent : Nat)
  | queueing (response : Str) (totalSent : Nat)
  | clearing
  deriving DecidableEq, Repr

def sendLoop (response : Str) (totalSent : Nat) : Progress :=
  if totalSent < response.length then .sending response totalSent else .clearing

def sendCall (response : Str) (totalSent : Nat) (o : Sent) (c : Connection) :
    Progress × Connection :=
  match o with
  | .bytes count => (sendLoop response (totalSent + count), c)
  | .again => (.queueing response totalSent, c)
  | .error => (.clearing, c.fail)

inductive Stage where
  | reading
  | receiving
  | received (commands : List Str)
  | processing (commands : List Str)
  | answering (response : Str) (commands : List Str)
  | submitting (cmd : Command) (commands : List Str)
  | updating
  | modifying (want : Bool)
  | writing
  | flushed
  deriving DecidableEq, Repr

abbrev Pending := Bool × Stage

def afterRead (out : Bool) : Option Pending := if out then some (false, .writing) else none

def onReady (inp out : Bool) : Option Pending :=
  if inp then some (out, .reading) else afterRead out

structure Turn where
  conn : Connection
  next : Option Pending
  closes : Bool
  submits : Option Command
  registers : Option Bool
  deriving DecidableEq, Repr

def Turn.moveTo (next : Option Pending) (c : Connection) : Turn := ⟨c, next, false, none, none⟩

def Turn.close (c : Connection) : Turn := ⟨c, none, true, none, none⟩

def loopTurn (out : Bool) (stage : Stage) (c : Connection) : Option Turn :=
  match stage with
  | .reading =>
      if c.inFlight then some (.moveTo (afterRead out) c)
      else some (.moveTo (some (out, .receiving)) c)
  | .receiving => none
  | .received commands =>
      if c.hasError then some (.close c) else some (.moveTo (some (out, .processing commands)) c)
  | .processing [] => some (.moveTo (some (out, .updating)) c)
  | .processing (cmd :: commands) =>
      let (ok, c) := c.trySetInFlight
      if ok then some (.moveTo (some (out, .submitting (parseCommand cmd) commands)) c) else none
  | .answering response commands =>
      some (.moveTo (some (out, .processing commands)) (c.queueResponse response))
  | .submitting cmd _ => some ⟨c, some (out, .updating), false, some cmd, none⟩
  | .updating => some (.moveTo (some (out, .modifying c.wantWrite)) c)
  | .modifying want => some ⟨c, afterRead out, false, none, some want⟩
  | .writing => none
  | .flushed =>
      if c.hasError then some (.close c) else some (.moveTo (some (false, .updating)) c)

@[simp] theorem readAndParse_fd (o : Received) (c : Connection) :
    (c.readAndParse o).2.fd = c.fd := by
  cases o <;> rfl

@[simp] theorem flushWriteBuffer_fd (o : Sent) (c : Connection) :
    (c.flushWriteBuffer o).2.fd = c.fd := by
  unfold Connection.flushWriteBuffer
  split
  · rfl
  · cases o <;> rfl

@[simp] theorem sendCall_fd (response : Str) (totalSent : Nat) (o : Sent) (c : Connection) :
    (sendCall response totalSent o c).2.fd = c.fd := by
  cases o <;> rfl

theorem loopTurn_spec {out : Bool} {stage : Stage} {c : Connection} {t : Turn}
    (h : loopTurn out stage c = some t) :
    t.conn.fd = c.fd ∧ (t.closes = true → t.next = none) ∧
      (t.submits ≠ none → ∃ cmd commands, stage = .submitting cmd commands) := by
  cases stage with
  | receiving | writing => cases h
  | answering | submitting | updating | modifying =>
    cases h
    simp [Turn.moveTo, Connection.queueResponse]
  | reading | received | flushed =>
    simp only [loopTurn] at h
    split at h <;> cases h <;> simp [Turn.moveTo, Turn.close]
  | processing commands =>
    cases commands with
    | nil =>
      cases h
      simp [Turn.moveTo]
    | cons cmd commands =>
      cases hf : c.inFlight with
      | true => simp [loopTurn, Connection.trySetInFlight, hf] at h
      | false =>
        simp only [loopTurn, Connection.trySetInFlight, hf] at h
        cases h
        simp [Turn.moveTo]

@[simp] theorem readAndParse_inFlight (o : Received) (c : Connection) :
    (c.readAndParse o).2.inFlight = c.inFlight := by
  cases o <;> rfl

@[simp] theorem flushWriteBuffer_inFlight (o : Sent) (c : Connection) :
    (c.flushWriteBuffer o).2.inFlight = c.inFlight := by
  unfold Connection.flushWriteBuffer
  split
  · rfl
  · cases o <;> rfl

@[simp] theorem sendCall_inFlight (response : Str) (totalSent : Nat) (o : Sent) (c : Connection) :
    (sendCall response totalSent o c).2.inFlight = c.inFlight := by
  cases o <;> rfl

theorem readAndParse_hasError {o : Received} {c : Connection}
    (h : (c.readAndParse o).2.hasError = false) : c.hasError = false := by
  cases o with
  | bytes chunk | again => exact h
  | eof | error => cases h

theorem flushWriteBuffer_hasError {o : Sent} {c : Connection}
    (h : (c.flushWriteBuffer o).2.hasError = false) : c.hasError = false := by
  unfold Connection.flushWriteBuffer at h
  split at h
  · exact h
  · cases o with
    | bytes count | again => exact h
    | error => cases h

theorem sendCall_hasError {response : Str} {totalSent : Nat} {o : Sent} {c : Connection}
    (h : (sendCall response totalSent o c).2.hasError = false) : c.hasError = false := by
  cases o with
  | bytes count | again => exact h
  | error => cases h

theorem extractCommands_split (buffer : Str) :
    extractCommands buffer =
      ((Lines.split '\n' buffer).1.foldr pushCommand [], (Lines.split '\n' buffer).2) := by
  induction buffer using extractCommands.induct with
  | case1 buffer h ih =>
    rw [extractCommands, dif_pos h, ih, Lines.split_first '\n' h]
    rfl
  | case2 buffer h =>
    rw [extractCommands, dif_neg h, Lines.split_clean _ _ h]
    rfl

end CacheForge
