import CacheForge.Server.Server

namespace CacheForge

def recvBufSize : Nat := 4096

inductive BenchStage where
  | starting
  | sending (buf : Str) (totalSent : Nat)
  | receiving (buffer : Str)
  | closed
  deriving DecidableEq, Repr

structure BenchClient where
  commands : List Str
  request : Nat
  stage : BenchStage
  replies : List Str
  errors : Nat
  deriving DecidableEq, Repr

namespace BenchClient

def create (commands : List Str) : BenchClient := ⟨commands, 0, .starting, [], 0⟩

def next (b : BenchClient) : BenchClient := { b with request := b.request + 1, stage := .starting }

def start (b : BenchClient) : Option BenchClient :=
  match b.stage with
  | .starting =>
      match b.commands[b.request]? with
      | some cmd => some { b with stage := .sending (cmd ++ ['\n']) 0 }
      | none => some { b with stage := .closed }
  | _ => none

def sendCommand (count : Nat) (b : BenchClient) : Option (BenchClient × Str) :=
  match b.stage with
  | .sending buf totalSent =>
      if 0 < count ∧ totalSent + count ≤ buf.length then
        let stage : BenchStage :=
          if totalSent + count < buf.length then .sending buf (totalSent + count) else .receiving []
        some ({ b with stage := stage }, (buf.drop totalSent).take count)
      else none
  | _ => none

def recvResponse (byte : Char) (b : BenchClient) : Option BenchClient :=
  match b.stage with
  | .receiving buffer =>
      let buffer := buffer ++ [byte]
      if byte = '\n' ∨ recvBufSize - 1 ≤ buffer.length then
        some { b with replies := b.replies ++ [buffer] }.next
      else some { b with stage := .receiving buffer }
  | _ => none

-- A send or recv that returns at most 0 ends the request, not the loop over the requests.
def fail (b : BenchClient) : Option BenchClient :=
  match b.stage with
  | .sending _ _ => some { b with errors := b.errors + 1 }.next
  | .receiving _ => some { b with errors := b.errors + 1 }.next
  | _ => none

end BenchClient

def benchCommand (read : Bool) (keyId : Nat) (value : Str) : Str :=
  if read then "GET key:".toList ++ stdToString keyId
  else "SET key:".toList ++ stdToString keyId ++ [' '] ++ value

def Out.bytesFrom (client : Nat) : Out → Str
  | .received _ sock chunk => if sock = client then chunk else []
  | _ => []

def Out.bytesTo (client : Nat) : Out → Str
  | .sent _ sock bytes => if sock = client then bytes else []
  | _ => []

structure Conversation where
  server : Server
  client : BenchClient
  toServer : Str
  toClient : Str

inductive TalkEvent where
  | server (e : Event)
  | start
  | send (count : Nat)
  | recv
  | fail

namespace Conversation

def begin (numThreads : Nat) (d : Dispatcher) (commands : List Str) : Conversation :=
  ⟨.start numThreads d, .create commands, [], []⟩

def carry (client : Nat) (t : Server) (os : List Out) (x : Conversation) :
    Option (Conversation × List Out) :=
  let got := os.flatMap (Out.bytesFrom client)
  if got <+: x.toServer then
    some ({ x with
      server := t
      toServer := x.toServer.drop got.length
      toClient := x.toClient ++ os.flatMap (Out.bytesTo client) }, os)
  else none

def recv (x : Conversation) : Option Conversation :=
  match x.toClient with
  | [] => none
  | byte :: rest =>
      (x.client.recvResponse byte).map (fun b => { x with client := b, toClient := rest })

end Conversation

def conversation (hash : Str → Nat) (client : Nat) : Machine Conversation TalkEvent Out where
  step x e :=
    match e with
    | .server e => ((server hash).step x.server e).bind fun (t, os) => x.carry client t os
    | .start => Machine.quiet (x.client.start.map (fun b => { x with client := b }))
    | .send count => Machine.quiet ((x.client.sendCommand count).map (fun (b, bytes) =>
        { x with client := b, toServer := x.toServer ++ bytes }))
    | .recv => Machine.quiet x.recv
    | .fail => Machine.quiet (x.client.fail.map (fun b => { x with client := b }))

end CacheForge
