import CacheForge.Library.Machine
import CacheForge.Protocol.Dispatcher
import CacheForge.Server.Connection

namespace CacheForge

structure Task where
  conn : Nat
  cmd : Command
  deriving DecidableEq, Repr

structure Job where
  conn : Nat
  progress : Progress
  deriving DecidableEq, Repr

structure Site where
  fd : Nat
  conn : Nat
  deriving DecidableEq, Repr

structure Server where
  conns : Nat → Connection
  accepted : Nat
  connections : Nat → Option Nat
  fdTable : Nat → Option Nat
  interest : Nat → Option Bool
  tasks : List Task
  workers : List (Option Job)
  loop : Option (Site × Pending)
  dispatcher : Dispatcher

inductive Event where
  | accept (fd : Nat)
  | ready (fd : Nat) (hup inp out : Bool)
  | loop
  | answer (r : Readings)
  | recv (o : Received)
  | flush (o : Sent)
  | take (w : Nat)
  | dispatch (w : Nat) (r : Readings)
  | send (w : Nat) (o : Sent)
  | queue (w : Nat)
  | clear (w : Nat)
  | sweep (now : Int) (shard : Fin numShards) (order : List Str)

inductive Out where
  | received (conn sock : Nat) (chunk : Str)
  | extracted (conn : Nat) (line : Str)
  | dispatched (conn : Nat) (cmd : Command) (response : Str)
  | sent (conn sock : Nat) (bytes : Str)
  | failed (conn : Nat)
  deriving DecidableEq, Repr

def Received.through (sock : Option Nat) (o : Received) : Received :=
  if sock.isSome then o else .error

def Received.outs (conn : Nat) : Option Nat → Received → List Out
  | some sock, .bytes chunk => [.received conn sock chunk]
  | _, _ => []

def Sent.through (sock : Option Nat) (o : Sent) : Sent :=
  if sock.isSome then o else .error

def Sent.outs (conn : Nat) (sock : Option Nat) (offered : Str) (o : Sent) : List Out :=
  if offered = [] then []
  else match sock, o with
    | some sock, .bytes count => [.sent conn sock (offered.take count)]
    | _, .error => [.failed conn]
    | _, _ => []

namespace Server

def start (numThreads : Nat) (dispatcher : Dispatcher) : Server where
  conns := fun _ => .create 0
  accepted := 0
  connections := fun _ => none
  fdTable := fun _ => none
  interest := fun _ => none
  tasks := []
  workers := List.replicate (if numThreads = 0 then 1 else numThreads) none
  loop := none
  dispatcher := dispatcher

def socket (c : Nat) (s : Server) : Option Nat := s.fdTable (s.conns c).fd

def setConn (c : Nat) (conn : Connection) (s : Server) : Server :=
  { s with conns := Function.update s.conns c conn }

def setWorker (w : Nat) (job : Option Job) (s : Server) : Server :=
  { s with workers := s.workers.set w job }

def addConnection (fd : Nat) (s : Server) : Server :=
  { s with
    conns := Function.update s.conns s.accepted (.create fd)
    accepted := s.accepted + 1
    connections := Function.update s.connections fd (some s.accepted)
    fdTable := Function.update s.fdTable fd (some s.accepted)
    interest := Function.update s.interest fd (some false) }

def acceptConnection (fd : Nat) (s : Server) : Option Server :=
  match s.loop, s.fdTable fd with
  | none, none => some (s.addConnection fd)
  | _, _ => none

def closeConnection (fd : Nat) (s : Server) : Server :=
  { s with
    interest := Function.update s.interest fd none
    connections := Function.update s.connections fd none
    fdTable := Function.update s.fdTable fd none }

def modifyFd (fd : Nat) (want : Option Bool) (s : Server) : Server :=
  match want with
  | none => s
  | some want => { s with interest := Function.update s.interest fd (some want) }

def submit (c : Nat) (cmd : Option Command) (s : Server) : Server :=
  match cmd with
  | none => s
  | some cmd => { s with tasks := s.tasks ++ [⟨c, cmd⟩] }

def visit (site : Site) (next : Option Pending) (s : Server) : Server :=
  { s with loop := next.map (fun p => (site, p)) }

def handleEvent (fd : Nat) (hup inp out : Bool) (s : Server) : Option Server :=
  match s.loop with
  | some _ => none
  | none =>
      if hup then some (s.closeConnection fd)
      else match s.connections fd with
        | none => some s
        | some c => some (s.visit ⟨fd, c⟩ (onReady inp out))

def turn (site : Site) (t : Turn) (s : Server) : Server :=
  let s := (s.setConn site.conn t.conn).visit site t.next
  let s := (s.submit site.conn t.submits).modifyFd site.fd t.registers
  if t.closes then s.closeConnection site.fd else s

section

variable (site : Site) (t : Turn) (s : Server)

@[simp] theorem turn_conns : (s.turn site t).conns = Function.update s.conns site.conn t.conn := by
  obtain ⟨x,next,closes,submits,registers⟩ := t
  cases closes <;> cases submits <;> cases registers <;> rfl

@[simp] theorem turn_accepted : (s.turn site t).accepted = s.accepted := by
  obtain ⟨x,next,closes,submits,registers⟩ := t
  cases closes <;> cases submits <;> cases registers <;> rfl

@[simp] theorem turn_connections : (s.turn site t).connections =
    if t.closes then Function.update s.connections site.fd none else s.connections := by
  obtain ⟨x,next,closes,submits,registers⟩ := t
  cases closes <;> cases submits <;> cases registers <;> rfl

@[simp] theorem turn_fdTable : (s.turn site t).fdTable =
    if t.closes then Function.update s.fdTable site.fd none else s.fdTable := by
  obtain ⟨x,next,closes,submits,registers⟩ := t
  cases closes <;> cases submits <;> cases registers <;> rfl

@[simp] theorem turn_interest : (s.turn site t).interest = Function.update s.interest site.fd
    (if t.closes then none else t.registers.or (s.interest site.fd)) := by
  obtain ⟨x,next,closes,submits,registers⟩ := t
  cases closes <;> cases submits <;> cases registers <;>
    simp [turn, setConn, visit, submit, modifyFd, closeConnection]

@[simp] theorem turn_tasks : (s.turn site t).tasks =
    s.tasks ++ (t.submits.map (Task.mk site.conn)).toList := by
  obtain ⟨x,next,closes,submits,registers⟩ := t
  cases submits with
  | none =>
    rw [Option.map_none, Option.toList_none, List.append_nil]
    cases closes <;> cases registers <;> rfl
  | some cmd => cases closes <;> cases registers <;> rfl

@[simp] theorem turn_workers : (s.turn site t).workers = s.workers := by
  obtain ⟨x,next,closes,submits,registers⟩ := t
  cases closes <;> cases submits <;> cases registers <;> rfl

@[simp] theorem turn_loop : (s.turn site t).loop = t.next.map (fun p => (site, p)) := by
  obtain ⟨x,next,closes,submits,registers⟩ := t
  cases closes <;> cases submits <;> cases registers <;> rfl

end

def handleLoop (s : Server) : Option Server :=
  match s.loop with
  | some (site, (out, stage)) =>
      (loopTurn out stage (s.conns site.conn)).map (fun t => s.turn site t)
  | none => none

def handleRecv (o : Received) (s : Server) : Option (Server × List Out) :=
  match s.loop with
  | some (site, (out, .receiving)) =>
      let sock := s.socket site.conn
      let o := o.through sock
      if o.possible then
        let (commands, conn) := (s.conns site.conn).readAndParse o
        some ((s.setConn site.conn conn).visit site (some (out, .received commands)),
          o.outs site.conn sock ++ commands.map (.extracted site.conn))
      else none
  | _ => none

def handleFlush (o : Sent) (s : Server) : Option (Server × List Out) :=
  match s.loop with
  | some (site, (_, .writing)) =>
      let sock := s.socket site.conn
      let o := o.through sock
      let conn := s.conns site.conn
      if o.possible conn.writeBuffer then
        some ((s.setConn site.conn (conn.flushWriteBuffer o).2).visit site (some (false, .flushed)),
          o.outs site.conn sock conn.writeBuffer)
      else none
  | _ => none

def take (w : Nat) (s : Server) : Option Server :=
  match s.workers[w]?, s.tasks with
  | some none, task :: tasks =>
      some ({ s with tasks := tasks }.setWorker w (some ⟨task.conn, .running task.cmd⟩))
  | _, _ => none

def workerSend (w : Nat) (o : Sent) (s : Server) : Option (Server × List Out) :=
  match s.workers[w]? with
  | some (some ⟨c, .sending response totalSent⟩) =>
      let sock := s.socket c
      let o := o.through sock
      if o.possible (response.drop totalSent) then
        let (p, conn) := sendCall response totalSent o (s.conns c)
        some ((s.setConn c conn).setWorker w (some ⟨c, p⟩),
          o.outs c sock (response.drop totalSent))
      else none
  | _ => none

def workerQueue (w : Nat) (s : Server) : Option Server :=
  match s.workers[w]? with
  | some (some ⟨c, .queueing response totalSent⟩) =>
      some ((s.setConn c ((s.conns c).queueResponse (response.drop totalSent))).setWorker w
        (some ⟨c, .clearing⟩))
  | _ => none

def workerClear (w : Nat) (s : Server) : Option Server :=
  match s.workers[w]? with
  | some (some ⟨c, .clearing⟩) =>
      some ((s.setConn c (s.conns c).clearInFlight).setWorker w none)
  | _ => none

variable (hash : Str → Nat)

def handleSync (r : Readings) (s : Server) : Option (Server × List Out) :=
  match s.loop with
  | some (site, (out, .processing (cmd :: commands))) =>
      if (s.conns site.conn).inFlight then
        let (response, dispatcher) := s.dispatcher.dispatch hash r (parseCommand cmd)
        some ({ s with dispatcher := dispatcher }.visit site
            (some (out, .answering response commands)),
          [.dispatched site.conn (parseCommand cmd) response])
      else none
  | _ => none

def workerDispatch (w : Nat) (r : Readings) (s : Server) : Option (Server × List Out) :=
  match s.workers[w]? with
  | some (some ⟨c, .running cmd⟩) =>
      let (response, dispatcher) := s.dispatcher.dispatch hash r cmd
      some ({ s with dispatcher := dispatcher }.setWorker w (some ⟨c, sendLoop response 0⟩),
        [.dispatched c cmd response])
  | _ => none

def sweep (now : Int) (i : Fin numShards) (order : List Str) (s : Server) : Server :=
  { s with dispatcher := { s.dispatcher with
    storage := s.dispatcher.storage.sweepShard now i order } }

def quietly (s : Option Server) : Option (Server × List Out) := s.map (fun s => (s, []))

end Server

def server (hash : Str → Nat) : Machine Server Event Out where
  step s e :=
    match e with
    | .accept fd => Server.quietly (s.acceptConnection fd)
    | .ready fd hup inp out => Server.quietly (s.handleEvent fd hup inp out)
    | .loop => Server.quietly s.handleLoop
    | .answer r => s.handleSync hash r
    | .recv o => s.handleRecv o
    | .flush o => s.handleFlush o
    | .take w => Server.quietly (s.take w)
    | .dispatch w r => s.workerDispatch hash w r
    | .send w o => s.workerSend w o
    | .queue w => Server.quietly (s.workerQueue w)
    | .clear w => Server.quietly (s.workerClear w)
    | .sweep now i order => some (s.sweep now i order, [])

end CacheForge
