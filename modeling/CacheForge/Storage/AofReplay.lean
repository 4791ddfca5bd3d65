import CacheForge.Library.Lines
import CacheForge.Protocol.Dispatcher

namespace CacheForge

structure ReplayStats where
  commandsReplayed : Nat
  linesSkipped : Nat
  errors : Nat
  deriving DecidableEq, Repr

def ReplayStats.zero : ReplayStats := ⟨0, 0, 0⟩

structure Replayed where
  storage : ShardedStorage
  stats : ReplayStats

namespace Replayed

def applied (storage : ShardedStorage) (p : Replayed) : Replayed :=
  ⟨storage, { p.stats with commandsReplayed := p.stats.commandsReplayed + 1 }⟩

def skipped (p : Replayed) : Replayed :=
  { p with stats := { p.stats with linesSkipped := p.stats.linesSkipped + 1 } }

def failed (p : Replayed) : Replayed :=
  { p with stats := { p.stats with errors := p.stats.errors + 1 } }

end Replayed

def getlines (file : Str) : List Str :=
  match file with
  | [] => []
  | c :: cs =>
      (c :: cs).takeWhile (fun c => c ≠ '\n') ::
        getlines ((c :: cs).dropWhile (fun c => c ≠ '\n')).tail
termination_by file.length
decreasing_by
  have hd := (List.dropWhile_suffix (l := c :: cs) (fun c => c ≠ '\n')).length_le
  simp only [List.length_tail, List.length_cons] at hd ⊢
  omega

def aofFile (ls : List Str) : Str := Lines.join '\n' ls

section

variable (hash : Str → Nat)

def replayExpire (r : Readings) (key : Str) (seconds : Int) (p : Replayed) : Replayed :=
  if seconds ≤ 0 then p.failed
  else p.applied (p.storage.expire hash r.now r.later key seconds).2

def replayCommand (r : Readings) (cmd : Command) (p : Replayed) : Replayed :=
  match cmd.type, cmd.args with
  | .set, key :: value :: _ => p.applied (p.storage.set hash key value)
  | .set, _ => p.failed
  | .del, key :: _ => p.applied (p.storage.del hash r.now key).2
  | .del, _ => p.failed
  | .expire, key :: number :: _ =>
      match stoll number with
      | none => p.failed
      | some seconds => replayExpire hash r key seconds p
  | .expire, _ => p.failed
  | _, _ => p.skipped

def replayLine (r : Readings) (line : Str) (p : Replayed) : Replayed :=
  if line = [] then p.skipped else replayCommand hash r (parseCommand line) p

def replayLines (ls : List (Readings × Str)) (p : Replayed) : Replayed :=
  ls.foldl (fun p l => replayLine hash l.1 l.2 p) p

def timed (clock : Nat → Readings) (ls : List Str) : List (Readings × Str) :=
  ls.mapIdx (fun i l => (clock i, l))

def replay (clock : Nat → Readings) (file : Option Str) (storage : ShardedStorage) : Replayed :=
  match file with
  | none => ⟨storage, .zero⟩
  | some content => replayLines hash (timed clock (getlines content)) ⟨storage, .zero⟩

end

theorem getlines_split (file : Str) :
    getlines file =
      (Lines.split '\n' file).1 ++ Lines.leftover (Lines.split '\n' file).2 := by
  induction file using getlines.induct with
  | case1 => simp [getlines, Lines.split, Lines.leftover]
  | case2 c cs ih =>
    rw [getlines]
    by_cases h : '\n' ∈ c :: cs
    · rw [Lines.split_first '\n' h, ih]
      rfl
    · have hall : ∀ d ∈ c :: cs, decide (d ≠ '\n') = true := fun d hd =>
        decide_eq_true fun he => h (he ▸ hd)
      rw [Lines.split_clean '\n' _ h, List.takeWhile_eq_self_iff.mpr hall,
        List.dropWhile_eq_nil_iff.mpr hall, List.tail_nil, getlines]
      rfl

theorem getlines_torn {ls : List Str} {t : Str} (h : ∀ l ∈ ls, '\n' ∉ l) (ht : '\n' ∉ t) :
    getlines (aofFile ls ++ t) = ls ++ Lines.leftover t := by
  rw [getlines_split, aofFile, Lines.split_join '\n' ls t h ht]

theorem getlines_aofFile {ls : List Str} (h : ∀ l ∈ ls, '\n' ∉ l) : getlines (aofFile ls) = ls := by
  simpa [Lines.leftover] using getlines_torn h (t := []) (by simp)

end CacheForge
