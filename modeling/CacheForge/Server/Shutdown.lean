import CacheForge.Persistence.Effect
import CacheForge.Server.Server
import CacheForge.Server.ThreadPool
import CacheForge.Storage.WriterLoop

namespace CacheForge

inductive ErrandStage where
  | dispatching
  | logging (rec : Record) (response : Str)
  | pushing (rec : Record) (response : Str)
  | sending (response : Str)
  | done
  deriving DecidableEq, Repr

structure Errand where
  conn : Nat
  cmd : Command
  stage : ErrandStage
  deriving DecidableEq, Repr

structure Delivery where
  conn : Nat
  cmd : Command
  response : Str
  deriving DecidableEq, Repr

inductive Teardown where
  | running
  | stopped
  | destroying
  deriving DecidableEq, Repr

inductive SendOutcome where
  | whole
  | again
  | error
  deriving DecidableEq, Repr

structure Shutdown where
  dispatcher : Dispatcher
  writer : Writer
  pool : ThreadPool Task
  errands : List (Option Errand)
  sockets : List Nat
  held : List Delivery
  teardown : Teardown

inductive ShutdownEvent where
  | submit (task : Task)
  | flush (conn : Nat)
  | hangUp (conn : Nat)
  | sweep (now : Int) (shard : Fin numShards) (order : List Str)
  | take (w : Nat)
  | dispatch (w : Nat) (r : Readings)
  | log (w : Nat)
  | push (w : Nat)
  | send (w : Nat) (o : SendOutcome)
  | finish (w : Nat)
  | leave (w : Nat)
  | writerLoop (e : WriterEvent)
  | stop
  | stopWriter (e : WriterEvent)
  | close (conn : Nat)
  | clear
  | destruct

def WriterEvent.inLoop : WriterEvent → Bool
  | .collect => true
  | .write => true
  | .endBatch _ => true
  | .spill _ => true
  | _ => false

def WriterEvent.inStop : WriterEvent → Bool
  | .stop => true
  | .requestStop => true
  | .join => true
  | .close => true
  | _ => false

theorem dispatch_split (hash : Str → Nat) (r : Readings) (cmd : Command) {d : Dispatcher}
    {w : AOFWriter} (h : d.aofWriter = some w) :
    d.dispatch hash r cmd =
      (({ d with aofWriter := none }.dispatch hash r cmd).1,
        { ({ d with aofWriter := none }.dispatch hash r cmd).2 with
          aofWriter := some (logRecord (effect hash r cmd d.storage).2 w) }) := by
  obtain ⟨storage,aofWriter,requests,reads,writes,hits,misses,startTime⟩ := d
  obtain rfl : aofWriter = some w := h
  obtain ⟨type,args⟩ := cmd
  cases type with
  | ping | stats | unknown => rfl
  | set => rcases args with _ | ⟨k,_ | ⟨v,rest⟩⟩ <;> rfl
  | get =>
    rcases args with _ | ⟨k,rest⟩
    · rfl
    · simp only [Dispatcher.dispatch, Dispatcher.dispatchGet, effect]
      split <;> rfl
  | del =>
    rcases args with _ | ⟨k,rest⟩
    · rfl
    · simp only [Dispatcher.dispatch, Dispatcher.dispatchDel, effect]
      split <;> rfl
  | expire =>
    rcases args with _ | ⟨k,_ | ⟨a,rest⟩⟩
    · rfl
    · rfl
    · simp only [Dispatcher.dispatch, Dispatcher.dispatchExpire, effect]
      cases stoll a with
      | none => rfl
      | some n =>
        simp only []
        split <;> rfl
  | ttl => rcases args with _ | ⟨k,rest⟩ <;> rfl

namespace Shutdown

def start (numThreads : Nat) (dispatcher : Dispatcher) (file : Str) (sockets : List Nat) :
    Shutdown where
  dispatcher := { dispatcher with aofWriter := none }
  writer := .start file
  pool := .create numThreads
  errands := List.replicate (if numThreads = 0 then 1 else numThreads) none
  sockets := sockets
  held := []
  teardown := .running

def setErrand (w : Nat) (errand : Option Errand) (s : Shutdown) : Shutdown :=
  { s with errands := s.errands.set w errand }

def submit (task : Task) (s : Shutdown) : Option Shutdown :=
  match s.teardown with
  | .running => (s.pool.submit task).map (fun pool => { s with pool := pool })
  | _ => none

def flush (conn : Nat) (s : Shutdown) : Option (Shutdown × List Delivery) :=
  match s.teardown, s.held.dropWhile (fun d => d.conn ≠ conn) with
  | .running, d :: rest =>
      if conn ∈ s.sockets then
        some ({ s with held := s.held.takeWhile (fun d => d.conn ≠ conn) ++ rest }, [d])
      else none
  | _, _ => none

def hangUp (conn : Nat) (s : Shutdown) : Option Shutdown :=
  match s.teardown with
  | .running => some { s with sockets := s.sockets.erase conn }
  | _ => none

def sweep (now : Int) (i : Fin numShards) (order : List Str) (s : Shutdown) : Shutdown :=
  { s with dispatcher := { s.dispatcher with
    storage := s.dispatcher.storage.sweepShard now i order } }

def take (w : Nat) (s : Shutdown) : Option Shutdown :=
  match s.errands[w]?, s.pool.tasks with
  | some none, task :: _ =>
      (s.pool.take w).map (fun pool =>
        { s with pool := pool }.setErrand w (some ⟨task.conn, task.cmd, .dispatching⟩))
  | _, _ => none

def dispatch (hash : Str → Nat) (w : Nat) (r : Readings) (s : Shutdown) : Option Shutdown :=
  match s.errands[w]? with
  | some (some ⟨conn, cmd, .dispatching⟩) =>
      let (response, dispatcher) := s.dispatcher.dispatch hash r cmd
      let stage :=
        match (effect hash r cmd s.dispatcher.storage).2 with
        | some rec => .logging rec response
        | none => .sending response
      some ({ s with dispatcher := dispatcher }.setErrand w (some ⟨conn, cmd, stage⟩))
  | _ => none

def log (w : Nat) (s : Shutdown) : Option Shutdown :=
  match s.errands[w]? with
  | some (some ⟨conn, cmd, .logging rec response⟩) =>
      (s.writer.log w rec).map (fun (writer, _) =>
        { s with writer := writer }.setErrand w (some ⟨conn, cmd,
          match writer.callers w with
          | some _ => .pushing rec response
          | none => .sending response⟩))
  | _ => none

def push (w : Nat) (s : Shutdown) : Option Shutdown :=
  match s.errands[w]? with
  | some (some ⟨conn, cmd, .pushing _ response⟩) =>
      (s.writer.push w).map (fun (writer, _) =>
        { s with writer := writer }.setErrand w (some ⟨conn, cmd, .sending response⟩))
  | _ => none

def send (w : Nat) (o : SendOutcome) (s : Shutdown) : Option (Shutdown × List Delivery) :=
  match s.errands[w]? with
  | some (some ⟨conn, cmd, .sending response⟩) =>
      let s' := s.setErrand w (some ⟨conn, cmd, .done⟩)
      if conn ∈ s.sockets then
        match o with
        | .whole => some (s', [⟨conn, cmd, response⟩])
        | .again => some ({ s' with held := s.held ++ [⟨conn, cmd, response⟩] }, [])
        | .error => some (s', [])
      else some (s', [])
  | _ => none

def finish (w : Nat) (s : Shutdown) : Option Shutdown :=
  match s.errands[w]? with
  | some (some ⟨_, _, .done⟩) =>
      (s.pool.finish w).map (fun (pool, _) => { s with pool := pool }.setErrand w none)
  | _ => none

def leave (w : Nat) (s : Shutdown) : Option Shutdown :=
  (s.pool.leave w).map (fun pool => { s with pool := pool })

def writerLoop (e : WriterEvent) (s : Shutdown) : Option Shutdown :=
  if e.inLoop then (aofWriter.step s.writer e).map (fun (writer, _) => { s with writer := writer })
  else none

def stop (s : Shutdown) : Option Shutdown :=
  match s.teardown with
  | .running => some { s with teardown := .stopped }
  | _ => none

def stopWriter (e : WriterEvent) (s : Shutdown) : Option Shutdown :=
  match s.teardown with
  | .stopped =>
      if e.inStop then
        (aofWriter.step s.writer e).map (fun (writer, _) => { s with writer := writer })
      else none
  | _ => none

def close (conn : Nat) (s : Shutdown) : Option Shutdown :=
  match s.teardown, s.writer.stopping with
  | .stopped, .returned =>
      if conn ∈ s.sockets then some { s with sockets := s.sockets.erase conn } else none
  | _, _ => none

def clear (s : Shutdown) : Option Shutdown :=
  match s.teardown, s.writer.stopping, s.sockets with
  | .stopped, .returned, [] => some { s with held := [], teardown := .destroying }
  | _, _, _ => none

def destruct (s : Shutdown) : Option Shutdown :=
  match s.teardown with
  | .destroying => s.pool.destruct.map (fun pool => { s with pool := pool })
  | _ => none

def ended (s : Shutdown) : Bool := s.teardown = .destroying && s.pool.destroyed

end Shutdown

def shutdown (hash : Str → Nat) : Machine Shutdown ShutdownEvent Delivery where
  step s e :=
    match e with
    | .submit task => Machine.quiet (s.submit task)
    | .flush conn => s.flush conn
    | .hangUp conn => Machine.quiet (s.hangUp conn)
    | .sweep now i order => some (s.sweep now i order, [])
    | .take w => Machine.quiet (s.take w)
    | .dispatch w r => Machine.quiet (s.dispatch hash w r)
    | .log w => Machine.quiet (s.log w)
    | .push w => Machine.quiet (s.push w)
    | .send w o => s.send w o
    | .finish w => Machine.quiet (s.finish w)
    | .leave w => Machine.quiet (s.leave w)
    | .writerLoop e => Machine.quiet (s.writerLoop e)
    | .stop => Machine.quiet s.stop
    | .stopWriter e => Machine.quiet (s.stopWriter e)
    | .close conn => Machine.quiet (s.close conn)
    | .clear => Machine.quiet s.clear
    | .destruct => Machine.quiet s.destruct

end CacheForge
