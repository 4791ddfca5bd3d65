import CacheForge.Server.Interest

namespace CacheForge

def maxEvents : Nat := 64

structure Ready where
  fd : Nat
  hup : Bool
  inp : Bool
  out : Bool
  deriving DecidableEq, Repr

inductive Control where
  | starting
  | checking
  | waiting
  | handling (rest : List Ready)
  | accepting (rest : List Ready)
  | returned
  | thrown
  | destroyed
  deriving DecidableEq, Repr

def Control.rest : Control → List Ready
  | handling rest => rest
  | accepting rest => rest
  | _ => []

structure EventLoop where
  server : Server
  serverFd : Nat
  running : Bool
  control : Control

inductive LoopEvent where
  | stop
  | run
  | check
  | wait (ready : List Ready)
  | next
  | accept (fd : Option Nat)
  | visit (e : Event)
  | destroy (order : List Nat)

inductive LoopOut where
  | reported (fd : Nat) (conn : Option Nat)
  | handled (fd : Nat) (conn : Option Nat)
  | opened (conn : Nat)
  | closed (fd : Nat) (sock : Option Nat)
  | served (o : Out)
  deriving DecidableEq, Repr

def Event.inner : Event → Bool
  | .accept _ => false
  | .ready _ _ _ _ => false
  | _ => true

namespace Server

-- `EPOLL_CTL_MOD` fails on a descriptor that is closed or not registered.
def modifyFails (e : Event) (s : Server) : Bool :=
  match e, s.loop with
  | .loop, some (site, (_, .modifying _)) =>
      (s.interest site.fd).isNone || (s.fdTable site.fd).isNone
  | _, _ => false

def closes (e : Event) (s : Server) : Option Nat :=
  match e, s.loop with
  | .loop, some (site, (out, stage)) =>
      match loopTurn out stage (s.conns site.conn) with
      | some t => if t.closes then some site.fd else none
      | none => none
  | _, _ => none

def closing (e : Event) (s : Server) : List LoopOut :=
  ((s.closes e).map fun fd => .closed fd (s.fdTable fd)).toList

def closeAll : List Nat → Server → Server × List LoopOut
  | [], s => (s, [])
  | fd :: order, s =>
      let r := closeAll order (s.closeConnection fd)
      (r.1, .closed fd (s.fdTable fd) :: r.2)

def openConns (s : Server) : List Nat :=
  (List.range s.accepted).filter fun c => s.connections (s.conns c).fd = some c

def openFds (s : Server) : List Nat := s.openConns.map fun c => (s.conns c).fd

end Server

namespace EventLoop

def create (serverFd numThreads : Nat) (dispatcher : Dispatcher) : EventLoop :=
  ⟨.start numThreads dispatcher, serverFd, false, .starting⟩

-- What `epoll_wait` can report: a registered descriptor at most once, and
-- EPOLLOUT only where it was asked for.
def Reports (l : EventLoop) (ready : List Ready) : Prop :=
  (ready.map Ready.fd).Nodup ∧ ready.length ≤ maxEvents ∧
    ∀ x ∈ ready, x.fd = l.serverFd ∨ l.server.interest x.fd ≠ none ∧
      (x.out = true → l.server.interest x.fd = some true)

instance (l : EventLoop) (ready : List Ready) : Decidable (l.Reports ready) :=
  inferInstanceAs (Decidable (_ ∧ _))

def stop (l : EventLoop) : EventLoop := { l with running := false }

def run (l : EventLoop) : Option EventLoop :=
  match l.control with
  | .starting => some { l with running := true, control := .checking }
  | _ => none

def check (l : EventLoop) : Option EventLoop :=
  match l.control with
  | .checking => some { l with control := if l.running then .waiting else .returned }
  | _ => none

def wait (ready : List Ready) (l : EventLoop) : Option (EventLoop × List LoopOut) :=
  match l.control with
  | .waiting =>
      if l.Reports ready then
        some ({ l with control := .handling ready },
          ready.map fun x => .reported x.fd (l.server.connections x.fd))
      else none
  | _ => none

def next (l : EventLoop) : Option (EventLoop × List LoopOut) :=
  match l.control, l.server.loop with
  | .handling [], none => some ({ l with control := .checking }, [])
  | .handling (x :: rest), none =>
      let handled := LoopOut.handled x.fd (l.server.connections x.fd)
      if x.fd = l.serverFd then some ({ l with control := .accepting rest }, [handled])
      else (l.server.handleEvent x.fd x.hup x.inp x.out).map fun s =>
        ({ l with server := s, control := .handling rest },
          handled :: if x.hup then [.closed x.fd (l.server.fdTable x.fd)] else [])
  | _, _ => none

-- `accept` gives a descriptor that is not in use; `EPOLL_CTL_ADD` fails on a
-- registered one, when the connection is in `connections_` already.
def acceptConnection (fd : Option Nat) (l : EventLoop) : Option (EventLoop × List LoopOut) :=
  match l.control, fd with
  | .accepting rest, none => some ({ l with control := .handling rest }, [])
  | .accepting _, some fd =>
      if fd = l.serverFd then none
      else (l.server.acceptConnection fd).map fun s =>
        (if l.server.interest fd = none then { l with server := s }
          else ⟨{ s with interest := l.server.interest }, l.serverFd, l.running, .thrown⟩,
          [.opened l.server.accepted])
  | _, _ => none

def destroy (order : List Nat) (l : EventLoop) : Option (EventLoop × List LoopOut) :=
  if (l.control = .returned ∨ l.control = .thrown) ∧ order.Perm l.server.openFds then
    let r := l.server.closeAll order
    some (⟨r.1, l.serverFd, false, .destroyed⟩, r.2)
  else none

def visit (hash : Str → Nat) (e : Event) (l : EventLoop) : Option (EventLoop × List LoopOut) :=
  if e.inner = false then none
  else if l.server.modifyFails e then
    some (⟨{ l.server with loop := none }, l.serverFd, l.running, .thrown⟩, [])
  else ((CacheForge.server hash).step l.server e).map fun x =>
    ({ l with server := x.1 }, l.server.closing e ++ x.2.map .served)

end EventLoop

def eventLoop (hash : Str → Nat) : Machine EventLoop LoopEvent LoopOut where
  step l e :=
    match e with
    | .stop => some (l.stop, [])
    | .run => Machine.quiet l.run
    | .check => Machine.quiet l.check
    | .wait ready => l.wait ready
    | .next => l.next
    | .accept fd => l.acceptConnection fd
    | .visit e => l.visit hash e
    | .destroy order => l.destroy order

namespace EventLoop

variable (hash : Str → Nat)

inductive Step (l : EventLoop) : LoopEvent → EventLoop → List LoopOut → Prop
  | stop : Step l .stop l.stop []
  | run (h : l.control = .starting) :
      Step l .run { l with running := true, control := .checking } []
  | check (h : l.control = .checking) :
      Step l .check { l with control := if l.running then .waiting else .returned } []
  | wait (ready : List Ready) (h : l.control = .waiting) (hr : l.Reports ready) :
      Step l (.wait ready) { l with control := .handling ready }
        (ready.map fun x => .reported x.fd (l.server.connections x.fd))
  | handled (h : l.control = .handling []) (hl : l.server.loop = none) :
      Step l .next { l with control := .checking } []
  | listener (x : Ready) (rest : List Ready) (h : l.control = .handling (x :: rest))
      (hl : l.server.loop = none) (hx : x.fd = l.serverFd) :
      Step l .next { l with control := .accepting rest }
        [.handled x.fd (l.server.connections x.fd)]
  | client (x : Ready) (rest : List Ready) (s : Server) (h : l.control = .handling (x :: rest))
      (hl : l.server.loop = none) (hx : x.fd ≠ l.serverFd)
      (hs : l.server.handleEvent x.fd x.hup x.inp x.out = some s) :
      Step l .next { l with server := s, control := .handling rest }
        (.handled x.fd (l.server.connections x.fd) ::
          if x.hup then [.closed x.fd (l.server.fdTable x.fd)] else [])
  | noMore (rest : List Ready) (h : l.control = .accepting rest) :
      Step l (.accept none) { l with control := .handling rest } []
  | accepted (rest : List Ready) (fd : Nat) (s : Server) (h : l.control = .accepting rest)
      (hfd : fd ≠ l.serverFd) (hs : l.server.acceptConnection fd = some s)
      (hi : l.server.interest fd = none) :
      Step l (.accept (some fd)) { l with server := s } [.opened l.server.accepted]
  | addFailed (rest : List Ready) (fd : Nat) (s : Server) (h : l.control = .accepting rest)
      (hs : l.server.acceptConnection fd = some s) (hi : l.server.interest fd ≠ none) :
      Step l (.accept (some fd))
        ⟨{ s with interest := l.server.interest }, l.serverFd, l.running, .thrown⟩
        [.opened l.server.accepted]
  | modifyFailed (e : Event) (he : e.inner = true) (hm : l.server.modifyFails e = true) :
      Step l (.visit e) ⟨{ l.server with loop := none }, l.serverFd, l.running, .thrown⟩ []
  | visit (e : Event) (t : Server) (o : List Out) (he : e.inner = true)
      (hm : l.server.modifyFails e = false)
      (hs : (CacheForge.server hash).step l.server e = some (t, o)) :
      Step l (.visit e) { l with server := t } (l.server.closing e ++ o.map .served)
  | destroy (order : List Nat) (h : l.control = .returned ∨ l.control = .thrown)
      (ho : order.Perm l.server.openFds) :
      Step l (.destroy order) ⟨(l.server.closeAll order).1, l.serverFd, false, .destroyed⟩
        (l.server.closeAll order).2

variable {hash} {l m : EventLoop} {e : LoopEvent} {o : List LoopOut}

theorem step_cases (h : (eventLoop hash).step l e = some (m, o)) : Step hash l e m o := by
  cases e with
  | stop =>
    cases h
    exact .stop
  | run =>
    obtain ⟨hx,rfl⟩ := Machine.quiet_some h
    unfold run at hx
    split at hx <;> cases hx
    exact .run ‹_›
  | check =>
    obtain ⟨hx,rfl⟩ := Machine.quiet_some h
    unfold check at hx
    split at hx <;> cases hx
    exact .check ‹_›
  | wait ready =>
    simp only [eventLoop, wait] at h
    split at h
    · split at h <;> cases h
      exact .wait ready ‹_› ‹_›
    · cases h
  | next =>
    simp only [eventLoop, next] at h
    split at h
    · cases h
      exact .handled ‹_› ‹_›
    · rename_i x rest hc hl
      split at h
      · cases h
        exact .listener x rest hc hl ‹_›
      · obtain ⟨s,hs,heq⟩ := Option.map_eq_some_iff.mp h
        cases heq
        exact .client x rest s hc hl ‹_› hs
    · cases h
  | accept fd =>
    simp only [eventLoop, acceptConnection] at h
    split at h
    · cases h
      exact .noMore _ ‹_›
    · rename_i rest fd hc
      split at h
      · cases h
      · obtain ⟨s,hs,heq⟩ := Option.map_eq_some_iff.mp h
        split at heq <;> cases heq
        · exact .accepted rest fd s hc ‹_› hs ‹_›
        · exact .addFailed rest fd s hc hs ‹_›
    · cases h
  | visit e =>
    simp only [eventLoop, visit] at h
    split at h
    · cases h
    · rename_i he
      split at h
      · cases h
        exact .modifyFailed e (by simpa using he) ‹_›
      · rename_i hm
        obtain ⟨⟨t,os⟩,hs,heq⟩ := Option.map_eq_some_iff.mp h
        cases heq
        exact .visit e t os (by simpa using he) (by simpa using hm) hs
  | destroy order =>
    simp only [eventLoop, destroy] at h
    split at h
    · rename_i hd
      cases h
      exact .destroy order hd.1 hd.2
    · cases h

end EventLoop

end CacheForge
