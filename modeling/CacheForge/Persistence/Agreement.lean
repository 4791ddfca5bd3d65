import CacheForge.Persistence.Effect

namespace CacheForge

def ZeroExpire (cmd : Command) : Prop :=
  ∃ k a rest, cmd = ⟨.expire, k :: a :: rest⟩ ∧ stoll a = some 0

theorem logged_record {w : AOFWriter} {o : Option Record} {l : Str}
    (h : logRecord o w = { w with queue := w.queue ++ [l] }) :
    ∃ rec, o = some rec ∧ l = rec.line := by
  have hq := congrArg AOFWriter.queue h
  cases o with
  | none => simp [logRecord] at hq
  | some rec =>
    refine ⟨rec,rfl,?_⟩
    simp only [logRecord, AOFWriter.log, AOFWriter.enqueue] at hq
    split at hq
    · simp at hq
    · split at hq
      · simp at hq
      · simpa using hq.symm

section

variable (hash : Str → Nat)

theorem positive_unless_zero {r : Readings} {st st' : ShardedStorage} {cmd : Command} {rec : Record}
    (h : EffectOf hash r st cmd (st', some rec)) (hz : ¬ZeroExpire cmd) : rec.Positive := by
  cases rec with
  | set k v => trivial
  | del k => trivial
  | expire k n =>
    obtain ⟨⟨a,rest,rfl,hn⟩,lo,-⟩ := h.number
    refine lt_of_le_of_ne lo ?_
    rintro rfl
    exact hz ⟨k,a,rest,rfl,hn⟩

theorem replay_zero_expire {r : Readings} {st st' : ShardedStorage} {cmd : Command} {rec : Record}
    (h : EffectOf hash r st cmd (st', some rec)) (hz : ZeroExpire cmd) (p : Replayed) :
    rec.replay hash r p = p.failed := by
  obtain ⟨k,a,rest,rfl,ha⟩ := hz
  cases h with
  | expire k a rest n hn h =>
    rw [ha] at hn
    cases hn
    rfl

theorem replay_agrees_with_dispatch (d : Dispatcher) (w : AOFWriter) (hw : d.aofWriter = some w)
    (r : Readings) (L : Str) (l : Str)
    (hlog : (d.dispatch hash r (parseCommand L)).2.aofWriter =
      some { w with queue := w.queue ++ [l] })
    (hL : '\n' ∉ L) (hs : ∀ t ∈ storedTokens (parseCommand L), Survives t)
    (stats : ReplayStats) :
    replayLine hash r l ⟨d.storage, stats⟩ =
        ⟨(d.dispatch hash r (parseCommand L)).2.storage,
          { stats with commandsReplayed := stats.commandsReplayed + 1 }⟩ ↔
      ¬ZeroExpire (parseCommand L) := by
  obtain ⟨hst,hwr⟩ := dispatch_effect hash r (parseCommand L) d
  rw [hlog, hw, Option.map_some, Option.some.injEq] at hwr
  obtain ⟨rec,hrec,rfl⟩ := logged_record hwr.symm
  have he := effect_logs hrec
  rw [hst, replayLine_line hash r _ (he.loggable hL hs)]
  constructor
  · intro h hz
    rw [replay_zero_expire hash he hz] at h
    have hc := congrArg (fun p => p.stats.commandsReplayed) h
    simp [Replayed.failed] at hc
  · intro hz
    rw [Record.replay_positive hash r (positive_unless_zero hash he hz), he.record]
    rfl

end

def holdingKey : Dispatcher :=
  (Dispatcher.dispatch (fun _ => 0) ⟨0, 0⟩ ⟨.set, [['k'], ['v']]⟩ (.fresh 16 0)).2

theorem replay_agrees_on_expire :
    replayLine (fun _ => 0) ⟨1, 1⟩ "EXPIRE k 7".toList ⟨holdingKey.storage, .zero⟩ =
      ⟨(holdingKey.dispatch (fun _ => 0) ⟨1, 1⟩ (parseCommand "expire k 7".toList)).2.storage,
        ⟨1, 0, 0⟩⟩ :=
  (replay_agrees_with_dispatch (fun _ => 0) holdingKey ⟨true, false, ["SET k v".toList]⟩
    (by decide +kernel) ⟨1, 1⟩ "expire k 7".toList "EXPIRE k 7".toList (by decide +kernel)
    (by decide) (by decide +kernel) .zero).mpr (by
      rintro ⟨k,a,rest,h,ha⟩
      have hp : parseCommand "expire k 7".toList = ⟨.expire, [['k'], ['7']]⟩ := by decide +kernel
      rw [hp] at h
      cases h
      revert ha
      decide +kernel)

theorem zero_expire_not_replayed :
    (holdingKey.dispatch (fun _ => 0) ⟨1, 1⟩ (parseCommand "EXPIRE k 0".toList)).2.aofWriter =
      some ⟨true, false, ["SET k v".toList, "EXPIRE k 0".toList]⟩ ∧
    (holdingKey.dispatch (fun _ => 0) ⟨1, 1⟩ (parseCommand "EXPIRE k 0".toList)).2.storage.lookup
      (fun _ => 0) ['k'] = some (['v'], some 1) ∧
    (replayLine (fun _ => 0) ⟨1, 1⟩ "EXPIRE k 0".toList ⟨holdingKey.storage, .zero⟩).storage.lookup
      (fun _ => 0) ['k'] = some (['v'], none) ∧
    (replayLine (fun _ => 0) ⟨1, 1⟩ "EXPIRE k 0".toList ⟨holdingKey.storage, .zero⟩).stats =
      ⟨0, 0, 1⟩ := by
  decide +kernel

end CacheForge
