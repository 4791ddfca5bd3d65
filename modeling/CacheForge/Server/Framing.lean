import CacheForge.Library.Transducer
import CacheForge.Server.Connection

namespace CacheForge

def Received.chunk : Received → Str
  | .bytes chunk => chunk
  | _ => []

def framed (stream : Str) : List Str :=
  ((Lines.split '\n' stream).1.map stripCr).filter (fun cmd => cmd ≠ [])

namespace Connection

def receive (os : List Received) (c : Connection) : List (List Str) × Connection :=
  Transducer.run (fun c o => c.readAndParse o) os c

end Connection

theorem foldr_pushCommand (ls : List Str) :
    ls.foldr pushCommand [] = (ls.map stripCr).filter (fun cmd => cmd ≠ []) := by
  induction ls with
  | nil => rfl
  | cons l ls ih =>
    rw [List.foldr_cons, ih, pushCommand]
    by_cases h : stripCr l = [] <;> simp [h]

theorem extractCommands_framed (buffer : Str) :
    extractCommands buffer = (framed buffer, (Lines.split '\n' buffer).2) := by
  rw [extractCommands_split, foldr_pushCommand, framed]

theorem framed_append (s t : Str) :
    framed (s ++ t) = framed s ++ framed ((Lines.split '\n' s).2 ++ t) := by
  simp only [framed, Lines.split_append '\n' s t, List.map_append, List.filter_append]

theorem framed_clean {s : Str} (h : '\n' ∉ s) : framed s = [] := by
  simp [framed, Lines.split_clean '\n' s h]

theorem readAndParse_framed {c : Connection} (h : '\n' ∉ c.readBuffer) (o : Received) :
    (c.readAndParse o).1 = framed (c.readBuffer ++ o.chunk) ∧
      (c.readAndParse o).2.readBuffer = (Lines.split '\n' (c.readBuffer ++ o.chunk)).2 := by
  cases o with
  | bytes chunk => simp [Connection.readAndParse, extractCommands_framed, Received.chunk]
  | eof | again | error =>
    simp [Connection.readAndParse, Connection.fail, Received.chunk, framed_clean h,
      Lines.split_clean '\n' _ h]

theorem receive_framed (os : List Received) {c : Connection} (h : '\n' ∉ c.readBuffer) :
    (c.receive os).1.flatten = framed (c.readBuffer ++ os.flatMap Received.chunk) ∧
      (c.receive os).2.readBuffer =
        (Lines.split '\n' (c.readBuffer ++ os.flatMap Received.chunk)).2 := by
  induction os generalizing c with
  | nil => simp [Connection.receive, Transducer.run, framed_clean h, Lines.split_clean '\n' _ h]
  | cons o os ih =>
    obtain ⟨hcmds,hbuf⟩ := readAndParse_framed h o
    have hclean : '\n' ∉ (c.readAndParse o).2.readBuffer :=
      hbuf ▸ (Lines.split_spec '\n' _).2.2
    obtain ⟨hrest,htail⟩ := ih hclean
    rw [hbuf] at hrest htail
    rw [List.flatMap_cons, ← List.append_assoc]
    refine ⟨?_,?_⟩
    · rw [framed_append, ← hrest, ← hcmds]
      rfl
    · rw [Lines.split_append '\n' (c.readBuffer ++ o.chunk)]
      exact htail

theorem framing_ignores_cuts (fd : Nat) (os : List Received) :
    ((Connection.create fd).receive os).1.flatten = framed (os.flatMap Received.chunk) ∧
      ∀ p, p <+: os → ((Connection.create fd).receive p).2.readBuffer =
          (Lines.split '\n' (p.flatMap Received.chunk)).2 ∧
        '\n' ∉ ((Connection.create fd).receive p).2.readBuffer := by
  have hempty : '\n' ∉ (Connection.create fd).readBuffer := List.not_mem_nil
  refine ⟨(receive_framed os hempty).1,fun p _ => ?_⟩
  have hbuf := (receive_framed p hempty).2
  exact ⟨hbuf,hbuf ▸ (Lines.split_spec '\n' _).2.2⟩

end CacheForge
