import CacheForge.Server.Simulation

namespace CacheForge

namespace Server

def submitting (c : Nat) (s : Server) : Bool :=
  match s.stage c with
  | some (_, .submitting _ _) => true
  | _ => false

def unfinished (c : Nat) (s : Server) : Nat :=
  (if s.submitting c then 1 else 0) + s.tasks.countP (fun task => task.conn = c) +
    s.workers.countP (fun slot => slot.any (fun job => job.conn = c))

theorem phases_length (c : Nat) (s : Server) :
    (s.phases c).length = s.tasks.countP (fun task => task.conn = c) +
      s.workers.countP (fun slot => slot.any (fun job => job.conn = c)) := by
  rw [phases, List.length_append, List.length_filterMap_eq_countP, List.length_filterMap_eq_countP]
  congr 1
  · refine List.countP_congr fun task _ => ?_
    by_cases h : task.conn = c <;> simp [Task.phase, h]
  · refine List.countP_congr fun slot _ => ?_
    cases slot with
    | none => simp [Job.phase]
    | some job => by_cases h : job.conn = c <;> simp [Job.phase, h]

theorem Sound.unfinished {s : Server} (hs : s.Sound) (c : Nat) :
    s.unfinished c = if (s.conns c).inFlight then 1 else 0 := by
  have hsound := hs.sound c
  have hlen : s.unfinished c = (if s.submitting c then 1 else 0) + (s.phases c).length := by
    rw [Server.unfinished, phases_length, Nat.add_assoc]
  have hphase : (s.phases c).length = if (s.link c).phase.isSome then 1 else 0 := by
    rw [hs.phases c]
    cases (s.link c).phase <;> rfl
  have hstage : (s.link c).stage = s.stage c := rfl
  have hconn : (s.link c).conn = s.conns c := rfl
  rw [hlen, hphase, submitting]
  rw [Link.Sound, hstage, hconn] at hsound
  cases hv : s.stage c with
  | none => simp_all
  | some site =>
    obtain ⟨out,stage⟩ := site
    rw [hv] at hsound
    cases stage <;> simp_all

end Server

theorem one_task_per_connection (hash : Str → Nat) (numThreads : Nat) (d : Dispatcher)
    {es : List Event} {s : Server} {os : List Out}
    (h : (server hash).Run Machine.anyStep (.start numThreads d) es s os) (c : Nat) :
    ((s.conns c).inFlight = true ↔ s.unfinished c = 1) ∧ s.unfinished c ≤ 1 ∧
      (∀ out cmd commands, s.stage c = some (out, .processing (cmd :: commands)) →
        (s.conns c).trySetInFlight.1 = true) ∧
      ∀ r, (server hash).step s (.answer r) = none := by
  have hs := Server.run_sound h
  have hu := hs.unfinished c
  refine ⟨?_,?_,?_,fun r => Server.sync_unreachable r hs⟩
  · cases hf : (s.conns c).inFlight <;> simp [hu, hf]
  · rw [hu]
    split <;> omega
  · intro out cmd commands hst
    have hsd := hs.sound c
    have hl : (s.link c).stage = some (out, .processing (cmd :: commands)) := hst
    simp only [Link.Sound, hl, Option.map_some] at hsd
    have hf : (s.conns c).inFlight = false := hsd.2
    simp [Connection.trySetInFlight, hf]

def pingWaiting : List Event :=
  [.accept 5, .ready 5 false true false, .loop, .recv (.bytes "PING\nPING\n".toList), .loop, .loop,
    .loop, .take 0]

theorem waiting_ping_alone :
    ∃ s os, (server (fun _ => 0)).Run Machine.anyStep (.start 2 (.create (.create 48) none 0))
        pingWaiting s os ∧ ((s.conns 0).inFlight = true ↔ s.unfinished 0 = 1) ∧
      s.unfinished 0 = 1 :=
  ⟨_,_,Machine.run_of_exec (by decide +kernel),
    (one_task_per_connection _ _ _ (Machine.run_of_exec (by decide +kernel)) 0).1,
    by decide +kernel⟩

end CacheForge
