import CacheForge.Server.Simulation

namespace CacheForge

def Stage.held : Stage → List Command
  | .received commands => commands.map parseCommand
  | .processing commands => commands.map parseCommand
  | .answering _ commands => commands.map parseCommand
  | .submitting cmd commands => cmd :: commands.map parseCommand
  | _ => []

def Phase.held : Phase → List Command
  | .queued cmd => [cmd]
  | .working (.running cmd) => [cmd]
  | .working _ => []

def heldOnLoop (stage : Option Pending) : List Command := stage.elim [] (fun p => p.2.held)

def Link.held (v : Link) : List Command := v.phase.elim [] Phase.held ++ heldOnLoop v.stage

def Server.held (c : Nat) (s : Server) : List Command :=
  (s.phases c).flatMap Phase.held ++ heldOnLoop (s.stage c)

def Note.line : Note → Option Str
  | .extracted line => some line
  | _ => none

def Note.command : Note → Option Command
  | .dispatched cmd _ => some cmd
  | _ => none

def extracted (ns : List Note) : List Command := (ns.filterMap Note.line).map parseCommand

def dispatched (ns : List Note) : List Command := ns.filterMap Note.command

theorem extracted_append (ns ms : List Note) :
    extracted (ns ++ ms) = extracted ns ++ extracted ms := by
  simp [extracted]

theorem dispatched_append (ns ms : List Note) :
    dispatched (ns ++ ms) = dispatched ns ++ dispatched ms :=
  List.filterMap_append ..

theorem held_link {s : Server} (hs : s.Sound) (c : Nat) : s.held c = (s.link c).held := by
  rw [Server.held, Link.held, hs.phases]
  cases (s.link c).phase <;> simp [Server.link]

def completeLines (text : Str) : Nat :=
  (Lines.split '\n' text).1.countP (fun line => line ≠ [] ∧ line ≠ ['\r'])

theorem stripCr_nil (line : Str) : stripCr line = [] ↔ line = [] ∨ line = ['\r'] := by
  unfold stripCr
  split
  · rename_i h
    obtain ⟨xs,rfl⟩ := List.getLast?_eq_some_iff.mp h
    simp
  · rename_i h
    constructor
    · exact .inl
    · rintro (rfl | rfl)
      · rfl
      · exact absurd rfl h

theorem extractCommands_length (text : Str) :
    (extractCommands text).1.length = completeLines text := by
  rw [extractCommands_split, completeLines]
  induction (Lines.split '\n' text).1 with
  | nil => rfl
  | cons line lines ih =>
    simp only [List.foldr_cons, pushCommand, List.countP_cons, stripCr_nil]
    split
    · rename_i h
      rcases h with rfl | rfl <;> simp [ih]
    · rename_i h
      rw [not_or] at h
      simp [h, ih]

theorem heldOnLoop_afterRead (out : Bool) : heldOnLoop (afterRead out) = [] := by
  cases out <;> rfl

theorem heldOnLoop_onReady (inp out : Bool) : heldOnLoop (onReady inp out) = [] := by
  cases inp with
  | true => rfl
  | false => exact heldOnLoop_afterRead out

theorem held_sendLoop (response : Str) (totalSent : Nat) :
    (Phase.working (sendLoop response totalSent)).held = [] := by
  unfold sendLoop
  split <;> rfl

theorem held_sendCall (response : Str) (totalSent : Nat) (o : Sent) (c : Connection) :
    (Phase.working (sendCall response totalSent o c).1).held = [] := by
  cases o with
  | bytes count => exact held_sendLoop ..
  | again | error => rfl

theorem flow_notes (offered : Str) (o : Sent) :
    extracted (o.notes offered) = [] ∧ dispatched (o.notes offered) = [] := by
  unfold Sent.notes
  split
  · exact ⟨rfl,rfl⟩
  · cases o <;> exact ⟨rfl,rfl⟩

theorem flow_recv (o : Received) (lines : List Str) :
    extracted (o.notes ++ lines.map .extracted) = lines.map parseCommand ∧
      dispatched (o.notes ++ lines.map .extracted) = [] := by
  have hn : extracted o.notes = [] ∧ dispatched o.notes = [] := by cases o <;> exact ⟨rfl,rfl⟩
  have hl : (lines.map Note.extracted).filterMap Note.line = lines :=
    List.filterMap_map.trans List.filterMap_some
  rw [extracted_append, dispatched_append, hn.1, hn.2]
  refine ⟨congrArg (List.map parseCommand) hl,?_⟩
  simp [dispatched, Note.command]

theorem link_flow {v w : Link} {a : Act} {ms : List Note} (hstep : LinkStep v a w ms) :
    ∃ lost, v.held ++ extracted ms = dispatched ms ++ w.held ++ lost ∧
      (w.conn.hasError = false → (heldOnLoop v.stage).length ≤ 1 → lost = []) := by
  cases hstep with
  | submitted out cmd commands h hp =>
    refine ⟨commands.map parseCommand,?_,?_⟩
    · simp [Link.held, h, hp, heldOnLoop, Stage.held, Phase.held, extracted, dispatched]
    · intro _ hl
      simpa [h, heldOnLoop, Stage.held] using hl
  | broken out commands h he =>
    refine ⟨commands.map parseCommand,?_,?_⟩
    · simp [Link.held, h, heldOnLoop, Stage.held, extracted, dispatched]
    · intro hn
      exact absurd (he.symm.trans hn) (by simp)
  | accepted fd h => exact ⟨[],by rw [h]; rfl,fun _ _ => rfl⟩
  | hungUp h => exact ⟨[],by simp [Link.held, extracted, dispatched],fun _ _ => rfl⟩
  | ready inp out h =>
    have hn : heldOnLoop v.stage = [] := by rw [h]; rfl
    exact ⟨[],by simp [Link.held, hn, heldOnLoop_onReady, extracted, dispatched],fun _ _ => rfl⟩
  | busy out h hf | modified out want h =>
    have hn : heldOnLoop v.stage = [] := by rw [h]; rfl
    exact ⟨[],by simp [Link.held, hn, heldOnLoop_afterRead, extracted, dispatched],fun _ _ => rfl⟩
  | free out h hf | parsed out commands h he | processed out h | claimed out cmd commands h hf
  | inspected out h | dropped out h he | kept out h he =>
    refine ⟨[],?_,fun _ _ => rfl⟩
    simp [Link.held, h, heldOnLoop, Stage.held, extracted, dispatched]
  | recv out o h ho =>
    refine ⟨[],?_,fun _ _ => rfl⟩
    simp [Link.held, h, heldOnLoop, Stage.held, flow_recv]
  | flush out o h ho =>
    refine ⟨[],?_,fun _ _ => rfl⟩
    simp [Link.held, h, heldOnLoop, Stage.held, flow_notes]
  | take cmd h | queue response totalSent h | clear h =>
    refine ⟨[],?_,fun _ _ => rfl⟩
    simp [Link.held, h, Phase.held, extracted, dispatched]
  | dispatch cmd response h =>
    refine ⟨[],?_,fun _ _ => rfl⟩
    simp only [Link.held, h, Option.elim_some, held_sendLoop]
    simp [Phase.held, extracted, dispatched, Note.line, Note.command]
  | send response totalSent o h ho =>
    refine ⟨[],?_,fun _ _ => rfl⟩
    simp only [Link.held, h, Option.elim_some, held_sendCall]
    simp [Phase.held, flow_notes]

theorem link_order {v w : Link} {a : Act} {ns ms : List Note} (hstep : LinkStep v a w ms)
    (h : (dispatched ns ++ v.held).Sublist (extracted ns)) :
    (dispatched (ns ++ ms) ++ w.held).Sublist (extracted (ns ++ ms)) := by
  obtain ⟨lost,heq,-⟩ := link_flow hstep
  rw [extracted_append, dispatched_append]
  exact Machine.flow_sublist h heq

def Link.SingleLine (v : Link) : Act → Prop
  | .recv (.bytes chunk) => completeLines (v.conn.readBuffer ++ chunk) ≤ 1
  | _ => True

theorem link_short {v w : Link} {a : Act} {ms : List Note} (hstep : LinkStep v a w ms)
    (hg : v.SingleLine a) (h : (heldOnLoop v.stage).length ≤ 1) :
    (heldOnLoop w.stage).length ≤ 1 := by
  cases hstep with
  | recv out o hv ho =>
    cases o with
    | bytes chunk =>
      have hl := extractCommands_length (v.conn.readBuffer ++ chunk)
      simp only [heldOnLoop, Stage.held, Option.elim_some, List.length_map]
      exact le_of_eq_of_le hl hg
    | eof | again | error => exact Nat.zero_le 1
  | ready inp out hv => simp [heldOnLoop_onReady]
  | busy out hv hf | modified out want hv => simp [heldOnLoop_afterRead]
  | parsed out commands hv he | claimed out cmd commands hv hf =>
    simpa [hv, heldOnLoop, Stage.held] using h
  | hungUp | take | dispatch | send | queue | clear => exact h
  | _ => exact Nat.zero_le 1

def SingleLine (c : Nat) (s : Server) : Event → Prop
  | .recv (.bytes chunk) =>
      s.reader = some c → completeLines ((s.conns c).readBuffer ++ chunk) ≤ 1
  | _ => True

theorem SingleLine.link {c : Nat} {s : Server} {e : Event} {a : Act} (h : SingleLine c s e)
    (ht : s.Traces e c a) : (s.link c).SingleLine a := by
  cases a with
  | silent | send => trivial
  | recv o =>
    cases o with
    | bytes chunk =>
      obtain ⟨rfl,hr⟩ := ht
      exact h hr
    | eof | again | error => trivial

instance (c : Nat) (s : Server) : DecidablePred (SingleLine c s)
  | .recv (.bytes _) => inferInstanceAs (Decidable (_ → _))
  | .recv .eof | .recv .again | .recv .error => isTrue trivial
  | .accept _ | .ready _ _ _ _ | .loop | .answer _ | .flush _ | .take _ | .dispatch _ _
  | .send _ _ | .queue _ | .clear _ | .sweep _ _ _ => isTrue trivial

section

variable (hash : Str → Nat) (numThreads : Nat) (d : Dispatcher) {es : List Event} {s : Server}
  {os : List Out}

theorem dispatched_in_order (c : Nat) {P : Server → Event → Prop}
    (h : (server hash).Run P (.start numThreads d) es s os) :
    (dispatched (notes c os) ++ s.held c).Sublist (extracted (notes c os)) := by
  rw [held_link (Server.run_sound h)]
  refine Server.run_link c (fun v ns => (dispatched ns ++ v.held).Sublist (extracted ns))
    (fun _ _ => True) (fun _ _ _ _ _ => trivial) (List.Sublist.refl _) ?_ h
  intro v a w ns ms _ hi _ hstep
  exact link_order hstep hi

theorem single_line_reads_lose_nothing (c : Nat)
    (h : (server hash).Run (SingleLine c) (.start numThreads d) es s os)
    (he : (s.conns c).hasError = false) :
    dispatched (notes c os) ++ s.held c = extracted (notes c os) := by
  rw [held_link (Server.run_sound h)]
  refine (Server.run_link c
    (fun v ns => (heldOnLoop v.stage).length ≤ 1 ∧
      (v.conn.hasError = false → dispatched ns ++ v.held = extracted ns))
    Link.SingleLine (fun _ _ _ hg ht => hg.link ht) ⟨Nat.zero_le 1,fun _ => rfl⟩ ?_ h).2 he
  intro v a w ns ms _ ⟨hl,hi⟩ hg hstep
  refine ⟨link_short hstep hg hl,?_⟩
  intro hw
  obtain ⟨lost,heq,hn⟩ := link_flow hstep
  obtain rfl := hn hw hl
  rw [List.append_nil] at heq
  rw [extracted_append, dispatched_append]
  exact Machine.flow_append (hi (Link.hasError_step hstep hw)) heq

end

def idleServer : Server := .start 1 (.create (.create 48) none 0)

def pingTwice : List Event :=
  [.accept 5, .ready 5 false true false, .loop, .recv (.bytes "PI".toList), .loop, .loop, .loop,
    .loop, .ready 5 false true false, .loop, .recv (.bytes "NG\r\n\n".toList), .loop, .loop, .loop,
    .loop, .loop, .take 0, .dispatch 0 ⟨0, 0⟩, .send 0 (.bytes 6), .clear 0,
    .ready 5 false true false, .loop, .recv (.bytes "TTL k\n".toList), .loop, .loop, .loop]

theorem split_ping_kept :
    ∃ s os, (server (fun _ => 0)).Run (SingleLine 0) idleServer pingTwice s os ∧
      dispatched (notes 0 os) ++ s.held 0 = extracted (notes 0 os) ∧
      dispatched (notes 0 os) = [⟨.ping, []⟩] ∧ s.held 0 = [⟨.ttl, [['k']]⟩] :=
  ⟨_,_,Machine.run_of_exec (by decide +kernel),
    single_line_reads_lose_nothing _ _ _ 0 (Machine.run_of_exec (by decide +kernel))
      (by decide +kernel),by decide +kernel⟩

def twoPings : List Event :=
  [.accept 5, .ready 5 false true false, .loop, .recv (.bytes "PING\nPING\n".toList), .loop,
    .loop, .loop, .loop, .loop, .take 0, .dispatch 0 ⟨0, 0⟩, .send 0 (.bytes 6), .clear 0]

theorem second_ping_lost :
    ∃ s os, (server (fun _ => 0)).Run Machine.anyStep idleServer twoPings s os ∧
      (s.conns 0).hasError = false ∧ s.connections 5 = some 0 ∧ s.held 0 = [] ∧
      (s.conns 0).readBuffer = [] ∧ extracted (notes 0 os) = [⟨.ping, []⟩, ⟨.ping, []⟩] ∧
      dispatched (notes 0 os) = [⟨.ping, []⟩] :=
  ⟨_,_,Machine.run_of_exec (by decide +kernel),by decide +kernel⟩

end CacheForge
