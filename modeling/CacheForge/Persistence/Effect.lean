import CacheForge.Persistence.RoundTrip
import CacheForge.Storage.AofReplay
import CacheForge.Storage.Lookup

namespace CacheForge

namespace Record

def key : Record → Str
  | set k _ => k
  | del k => k
  | expire k _ => k

def tokens : Record → List Str
  | set k v => [k, v]
  | del k => [k]
  | expire k _ => [k]

def command : Record → Command
  | set k v => ⟨.set, [k, v]⟩
  | del k => ⟨.del, [k]⟩
  | expire k n => ⟨.expire, [k, stdToString n]⟩

def Positive : Record → Prop
  | expire _ n => 0 < n
  | _ => True

def InRange : Record → Prop
  | expire _ n => int64Min ≤ n ∧ n ≤ int64Max
  | _ => True

def Loggable (rec : Record) : Prop :=
  '\n' ∉ rec.line ∧ (∀ t ∈ rec.tokens, Survives t) ∧ rec.InRange

def Accepted : Record → Prop
  | expire _ n => 0 ≤ n ∧ n ≤ int64Max
  | _ => True

def apply (hash : Str → Nat) (r : Readings) : Record → ShardedStorage → ShardedStorage
  | set k v, st => st.set hash k v
  | del k, st => (st.del hash r.now k).2
  | expire k n, st => (st.expire hash r.now r.later k n).2

def replay (hash : Str → Nat) (r : Readings) (rec : Record) (p : Replayed) : Replayed :=
  match rec with
  | set k v => p.applied (p.storage.set hash k v)
  | del k => p.applied (p.storage.del hash r.now k).2
  | expire k n => replayExpire hash r k n p

def update (r : Readings) : Record → Option Item → Option Item
  | set _ v, _ => some (v, none)
  | del _, _ => none
  | expire _ n, x =>
      if n < 0 then x
      else (live r.now x).map (fun i => (i.1, some (deadlineAfter r.later n)))

theorem Accepted.inRange {rec : Record} (h : rec.Accepted) : rec.InRange := by
  cases rec with
  | set k v => trivial
  | del k => trivial
  | expire k n => exact ⟨le_trans (by decide) h.1,h.2⟩

theorem line_ne_nil (rec : Record) : rec.line ≠ [] := by cases rec <;> simp [line]

theorem line_clean {rec : Record} (h : ∀ t ∈ rec.tokens, '\n' ∉ t) : '\n' ∉ rec.line := by
  cases rec with
  | set k v => exact (line_newline_free (h k (by simp [tokens])) (h v (by simp [tokens])) 0).1
  | del k => exact (line_newline_free (h k (by simp [tokens])) (h k (by simp [tokens])) 0).2.1
  | expire k n => exact (line_newline_free (h k (by simp [tokens])) (h k (by simp [tokens])) n).2.2

section

variable (hash : Str → Nat) (r : Readings)

theorem replay_positive {rec : Record} (h : rec.Positive) (p : Replayed) :
    rec.replay hash r p = p.applied (rec.apply hash r p.storage) := by
  cases rec with
  | set k v => rfl
  | del k => rfl
  | expire k n => exact if_neg (not_le.mpr h)

theorem apply_shard (rec : Record) (st : ShardedStorage) (i : Fin numShards) (x : Str) :
    ((rec.apply hash r st).shards i).lookup x =
        (if x = rec.key ∧ i = shardIndex hash rec.key then rec.update r ((st.shards i).lookup x)
          else (st.shards i).lookup x) ∨
      x ≠ rec.key ∧ ((rec.apply hash r st).shards i).lookup x = none ∧
        (rec.apply hash r st).evictedKeys ≠ st.evictedKeys := by
  cases rec with
  | set k v =>
    have hs := Shard.insertOrUpdate_spec st.maxKeysPerShard k v none (st.shards (shardIndex hash k))
    simp only [apply, key, update, ShardedStorage.set, ShardedStorage.onShard,
      ShardedStorage.locked_shards]
    by_cases hi : i = shardIndex hash k
    · by_cases hx : x = k
      · exact Or.inl (by simp [hi, hx, hs.1])
      · rcases hs.2.1 x hx with hk | hk
        · exact Or.inl (by simp [hi, hx, hk])
        · by_cases h0 : ((st.shards (shardIndex hash k)).insertOrUpdate st.maxKeysPerShard k v
            none).evicted = 0
          · exact Or.inl (by simp [hi, hx, hs.2.2 h0 x hx])
          · exact Or.inr ⟨hx,by simp [hi, hk],by simp [ShardedStorage.locked, h0]⟩
    · exact Or.inl (by simp [hi])
  | del k =>
    refine Or.inl ?_
    exact ShardedStorage.locked_pointwise (Shard.del_spec r.now k _).2.2 i x
  | expire k n =>
    refine Or.inl ?_
    simp only [apply, key, update, ShardedStorage.expire]
    split
    · simp
    · refine (ShardedStorage.locked_pointwise
        (Shard.expire_spec r.now r.later k n _).2.2 i x).trans ?_
      split
      · rename_i h
        rw [h.1, h.2]
      · rfl

theorem update_present {rec : Record} {x : Option Item} (h : rec.update r x ≠ none) :
    x ≠ none ∨ ∃ v, rec = .set rec.key v := by
  cases rec with
  | set k v => exact Or.inr ⟨v,rfl⟩
  | del k => exact absurd rfl h
  | expire k n =>
    refine Or.inl ?_
    rintro rfl
    simp [update] at h

theorem apply_self (rec : Record) (st : ShardedStorage) :
    (rec.apply hash r st).lookup hash rec.key = rec.update r (st.lookup hash rec.key) := by
  rcases apply_shard hash r rec st (shardIndex hash rec.key) rec.key with h | ⟨h,-⟩
  · simpa [ShardedStorage.lookup] using h
  · exact absurd rfl h

theorem apply_other {rec : Record} {x : Str} (hx : x ≠ rec.key) (st : ShardedStorage) :
    (rec.apply hash r st).lookup hash x = st.lookup hash x ∨
      (rec.apply hash r st).lookup hash x = none ∧
        (rec.apply hash r st).evictedKeys ≠ st.evictedKeys := by
  rcases apply_shard hash r rec st (shardIndex hash x) x with h | ⟨-,h⟩
  · exact Or.inl (by simpa [hx, ShardedStorage.lookup] using h)
  · exact Or.inr h

theorem replay_rejected {rec : Record} (h : ¬rec.Positive) (p : Replayed) :
    (rec.replay hash r p).storage = p.storage := by
  cases rec with
  | set k v => exact absurd trivial h
  | del k => exact absurd trivial h
  | expire k n => simp [replay, replayExpire, not_lt.mp h, Replayed.failed]

theorem replay_other {rec : Record} {x : Str} (hx : x ≠ rec.key) (p : Replayed) :
    (rec.replay hash r p).storage.lookup hash x = p.storage.lookup hash x ∨
      (rec.replay hash r p).storage.lookup hash x = none := by
  by_cases hpos : rec.Positive
  · rw [replay_positive hash r hpos]
    exact (apply_other hash r hx p.storage).imp_right And.left
  · exact Or.inl (by rw [replay_rejected hash r hpos])

theorem apply_capacity (rec : Record) (st : ShardedStorage) :
    (rec.apply hash r st).maxKeysPerShard = st.maxKeysPerShard := by
  cases rec with
  | set k v => rfl
  | del k => rfl
  | expire k n =>
    simp only [apply, ShardedStorage.expire]
    split <;> rfl

theorem apply_evicts_nothing {rec : Record} (h : ∀ k v, rec ≠ .set k v) (st : ShardedStorage) :
    (rec.apply hash r st).evictedKeys = st.evictedKeys := by
  cases rec with
  | set k v => exact absurd rfl (h k v)
  | del k =>
    have h0 := (Shard.del_spec r.now k (st.shards (shardIndex hash k))).2.1
    simp [apply, ShardedStorage.del, ShardedStorage.onShard, ShardedStorage.locked, h0]
  | expire k n =>
    have h0 := (Shard.expire_spec r.now r.later k n (st.shards (shardIndex hash k))).2.1
    simp only [apply, ShardedStorage.expire]
    split
    · rfl
    · simp [ShardedStorage.onShard, ShardedStorage.locked, h0]

theorem apply_evicted (rec : Record) (st : ShardedStorage) :
    st.evictedKeys ≤ (rec.apply hash r st).evictedKeys := by
  cases rec with
  | set k v => exact Nat.le_add_right _ _
  | del k => exact (apply_evicts_nothing hash r (by simp) st).ge
  | expire k n => exact (apply_evicts_nothing hash r (by simp) st).ge

end

end Record

structure Quiet (now : Int) (st st' : ShardedStorage) : Prop where
  capacity : st'.maxKeysPerShard = st.maxKeysPerShard
  evicted : st'.evictedKeys = st.evictedKeys
  shard : ∀ i x, (st'.shards i).lookup x = (st.shards i).lookup x ∨
    (st'.shards i).lookup x = none ∧ live now ((st.shards i).lookup x) = none

namespace Quiet

theorem refl (now : Int) (st : ShardedStorage) : Quiet now st st :=
  ⟨rfl,rfl,fun _ _ => Or.inl rfl⟩

theorem locked {R : Type} {now : Int} {st : ShardedStorage} {i : Fin numShards}
    {op : Shard → Outcome R} (he : (op (st.shards i)).evicted = 0)
    (h : ∀ x, (op (st.shards i)).shard.lookup x = (st.shards i).lookup x ∨
      (op (st.shards i)).shard.lookup x = none ∧ live now ((st.shards i).lookup x) = none) :
    Quiet now st (st.locked i op).2 := by
  refine ⟨rfl,by simp [ShardedStorage.locked, he],fun j x => ?_⟩
  rw [ShardedStorage.locked_shards]
  split
  · rename_i hj
    exact hj ▸ h x
  · exact Or.inl rfl

theorem accessed {R : Type} {now : Int} {st : ShardedStorage} {i : Fin numShards}
    {op : Shard → Outcome R} {k : Str} (he : (op (st.shards i)).evicted = 0)
    (h : ∀ x, (op (st.shards i)).shard.lookup x =
      if x = k then live now ((st.shards i).lookup k) else (st.shards i).lookup x) :
    Quiet now st (st.locked i op).2 := by
  refine locked he fun x => ?_
  rw [h]
  by_cases hx : x = k
  · subst hx
    cases hl : live now ((st.shards i).lookup x) with
    | none => simp
    | some y => simp [live_eq_some hl]
  · simp [hx]

theorem lookup {now : Int} {st st' : ShardedStorage} (h : Quiet now st st') (hash : Str → Nat)
    (x : Str) : st'.lookup hash x = st.lookup hash x ∨
      st'.lookup hash x = none ∧ live now (st.lookup hash x) = none :=
  h.shard (shardIndex hash x) x

end Quiet

section

variable (hash : Str → Nat)

def effect (r : Readings) (cmd : Command) (st : ShardedStorage) : ShardedStorage × Option Record :=
  match cmd.type, cmd.args with
  | .set, k :: v :: _ => (st.set hash k v, some (.set k v))
  | .get, k :: _ => ((st.get hash r.now k).2, none)
  | .del, k :: _ =>
      ((st.del hash r.now k).2, if (st.del hash r.now k).1 then some (.del k) else none)
  | .expire, k :: a :: _ =>
      match stoll a with
      | none => (st, none)
      | some n => ((st.expire hash r.now r.later k n).2,
          if (st.expire hash r.now r.later k n).1 then some (.expire k n) else none)
  | .ttl, k :: _ => ((st.ttl hash r.now r.later k).2, none)
  | _, _ => (st, none)

def logRecord (rec : Option Record) (w : AOFWriter) : AOFWriter :=
  match rec with
  | none => w
  | some rec => w.log rec

theorem dispatch_effect (r : Readings) (cmd : Command) (d : Dispatcher) :
    (d.dispatch hash r cmd).2.storage = (effect hash r cmd d.storage).1 ∧
    (d.dispatch hash r cmd).2.aofWriter =
      d.aofWriter.map (logRecord (effect hash r cmd d.storage).2) := by
  obtain ⟨type,args⟩ := cmd
  have hid : Option.map (logRecord none) d.aofWriter = d.aofWriter := by
    cases d.aofWriter <;> rfl
  cases type with
  | ping => exact ⟨rfl,hid.symm⟩
  | stats => exact ⟨rfl,hid.symm⟩
  | unknown => exact ⟨rfl,hid.symm⟩
  | set =>
    rcases args with _ | ⟨k,_ | ⟨v,rest⟩⟩
    · exact ⟨rfl,hid.symm⟩
    · exact ⟨rfl,hid.symm⟩
    · exact ⟨rfl,rfl⟩
  | get =>
    rcases args with _ | ⟨k,rest⟩
    · exact ⟨rfl,hid.symm⟩
    · simp only [Dispatcher.dispatch, Dispatcher.dispatchGet, effect]
      split <;> exact ⟨rfl,hid.symm⟩
  | del =>
    rcases args with _ | ⟨k,rest⟩
    · exact ⟨rfl,hid.symm⟩
    · simp only [Dispatcher.dispatch, Dispatcher.dispatchDel, effect]
      split
      · exact ⟨rfl,rfl⟩
      · exact ⟨rfl,hid.symm⟩
  | expire =>
    rcases args with _ | ⟨k,_ | ⟨a,rest⟩⟩
    · exact ⟨rfl,hid.symm⟩
    · exact ⟨rfl,hid.symm⟩
    · simp only [Dispatcher.dispatch, Dispatcher.dispatchExpire, effect]
      cases stoll a with
      | none => exact ⟨rfl,hid.symm⟩
      | some n =>
        simp only
        split
        · exact ⟨rfl,rfl⟩
        · exact ⟨rfl,hid.symm⟩
  | ttl =>
    rcases args with _ | ⟨k,rest⟩
    · exact ⟨rfl,hid.symm⟩
    · exact ⟨rfl,hid.symm⟩

def storedTokens (cmd : Command) : List Str :=
  match cmd.type with
  | .set => cmd.args
  | .del => cmd.args.take 1
  | .expire => cmd.args.take 1
  | _ => []

def Command.setKey (cmd : Command) : Option Str :=
  match cmd.type, cmd.args with
  | .set, k :: _ :: _ => some k
  | _, _ => none

inductive EffectOf (r : Readings) (st : ShardedStorage) :
    Command → ShardedStorage × Option Record → Prop
  | set (k v : Str) (rest : List Str) :
      EffectOf r st ⟨.set, k :: v :: rest⟩ (st.set hash k v, some (.set k v))
  | get (k : Str) (rest : List Str) :
      EffectOf r st ⟨.get, k :: rest⟩ ((st.get hash r.now k).2, none)
  | del (k : Str) (rest : List Str) (h : (st.del hash r.now k).1 = true) :
      EffectOf r st ⟨.del, k :: rest⟩ ((st.del hash r.now k).2, some (.del k))
  | delMiss (k : Str) (rest : List Str) (h : (st.del hash r.now k).1 = false) :
      EffectOf r st ⟨.del, k :: rest⟩ ((st.del hash r.now k).2, none)
  | expire (k a : Str) (rest : List Str) (n : Int) (hn : stoll a = some n)
      (h : (st.expire hash r.now r.later k n).1 = true) :
      EffectOf r st ⟨.expire, k :: a :: rest⟩
        ((st.expire hash r.now r.later k n).2, some (.expire k n))
  | expireMiss (k a : Str) (rest : List Str) (n : Int) (hn : stoll a = some n)
      (h : (st.expire hash r.now r.later k n).1 = false) :
      EffectOf r st ⟨.expire, k :: a :: rest⟩ ((st.expire hash r.now r.later k n).2, none)
  | ttl (k : Str) (rest : List Str) :
      EffectOf r st ⟨.ttl, k :: rest⟩ ((st.ttl hash r.now r.later k).2, none)
  | idle (cmd : Command) : EffectOf r st cmd (st, none)

theorem effect_of (r : Readings) (st : ShardedStorage) (cmd : Command) :
    EffectOf hash r st cmd (effect hash r cmd st) := by
  obtain ⟨type,args⟩ := cmd
  cases type with
  | ping => exact .idle _
  | stats => exact .idle _
  | unknown => exact .idle _
  | set =>
    rcases args with _ | ⟨k,_ | ⟨v,rest⟩⟩
    · exact .idle _
    · exact .idle _
    · exact .set k v rest
  | get =>
    rcases args with _ | ⟨k,rest⟩
    · exact .idle _
    · exact .get k rest
  | del =>
    rcases args with _ | ⟨k,rest⟩
    · exact .idle _
    · cases h : (st.del hash r.now k).1 with
      | true => simpa [effect, h] using EffectOf.del k rest h
      | false => simpa [effect, h] using EffectOf.delMiss k rest h
  | expire =>
    rcases args with _ | ⟨k,_ | ⟨a,rest⟩⟩
    · exact .idle _
    · exact .idle _
    · cases hn : stoll a with
      | none => simpa [effect, hn] using EffectOf.idle ⟨.expire, k :: a :: rest⟩
      | some n =>
        cases h : (st.expire hash r.now r.later k n).1 with
        | true => simpa [effect, hn, h] using EffectOf.expire k a rest n hn h
        | false => simpa [effect, hn, h] using EffectOf.expireMiss k a rest n hn h
  | ttl =>
    rcases args with _ | ⟨k,rest⟩
    · exact .idle _
    · exact .ttl k rest

variable {hash}

theorem effect_logs {r : Readings} {st : ShardedStorage} {cmd : Command} {rec : Record}
    (h : (effect hash r cmd st).2 = some rec) :
    EffectOf hash r st cmd ((effect hash r cmd st).1, some rec) := by
  rw [← h]
  exact effect_of hash r st cmd

theorem EffectOf.record {r : Readings} {st st' : ShardedStorage} {cmd : Command} {rec : Record}
    (h : EffectOf hash r st cmd (st', some rec)) : st' = rec.apply hash r st := by
  cases h <;> rfl

theorem EffectOf.tokens {r : Readings} {st st' : ShardedStorage} {cmd : Command} {rec : Record}
    (h : EffectOf hash r st cmd (st', some rec)) :
    ∀ t ∈ rec.tokens, t ∈ storedTokens cmd ∧ t ∈ cmd.args := by
  cases h <;> simp [Record.tokens, storedTokens]

theorem EffectOf.number {r : Readings} {st st' : ShardedStorage} {cmd : Command} {k : Str} {n : Int}
    (h : EffectOf hash r st cmd (st', some (.expire k n))) :
    (∃ a rest, cmd = ⟨.expire, k :: a :: rest⟩ ∧ stoll a = some n) ∧ 0 ≤ n ∧ n ≤ int64Max := by
  cases h with
  | expire k a rest n hn h =>
    refine ⟨⟨a,rest,rfl,hn⟩,?_,(stoll_range hn).2⟩
    by_contra hneg
    simp [ShardedStorage.expire, not_le.mp hneg] at h

theorem EffectOf.setKey {r : Readings} {st st' : ShardedStorage} {cmd : Command} {k v : Str}
    (h : EffectOf hash r st cmd (st', some (.set k v))) : cmd.setKey = some k := by
  cases h
  rfl

theorem EffectOf.accepted {r : Readings} {st st' : ShardedStorage} {cmd : Command} {rec : Record}
    (h : EffectOf hash r st cmd (st', some rec)) : rec.Accepted := by
  cases rec with
  | set k v => trivial
  | del k => trivial
  | expire k n => exact h.number.2

theorem EffectOf.loggable_command {r : Readings} {st st' : ShardedStorage} {cmd : Command}
    {rec : Record} (h : EffectOf hash r st cmd (st', some rec)) (hn : ∀ a ∈ cmd.args, '\n' ∉ a)
    (hs : ∀ t ∈ storedTokens cmd, Survives t) : rec.Loggable :=
  ⟨Record.line_clean fun t ht => hn t (h.tokens t ht).2,fun t ht => hs t (h.tokens t ht).1,
    h.accepted.inRange⟩

theorem EffectOf.loggable {r : Readings} {st st' : ShardedStorage} {text : Str} {rec : Record}
    (h : EffectOf hash r st (parseCommand text) (st', some rec)) (hn : '\n' ∉ text)
    (hs : ∀ t ∈ storedTokens (parseCommand text), Survives t) : rec.Loggable :=
  h.loggable_command (fun _ ha hc => hn ((parseCommand_args ha).2 _ hc)) hs

theorem EffectOf.quiet {r : Readings} {st st' : ShardedStorage} {cmd : Command}
    (h : EffectOf hash r st cmd (st', none)) : Quiet r.now st st' := by
  cases h with
  | get k rest =>
    obtain ⟨-,he,hx⟩ := Shard.get_spec r.now k (st.shards (shardIndex hash k))
    exact Quiet.accessed he hx
  | delMiss k rest h =>
    rw [ShardedStorage.del_result, Option.isSome_eq_false_iff, Option.isNone_iff_eq_none] at h
    obtain ⟨-,he,hx⟩ := Shard.del_spec r.now k (st.shards (shardIndex hash k))
    exact Quiet.accessed he (h ▸ hx)
  | expireMiss k a rest n hn h =>
    by_cases hneg : n < 0
    · rw [ShardedStorage.expire, if_pos hneg]
      exact Quiet.refl _ _
    · rw [ShardedStorage.expire_result hash _ _ _ _ (not_lt.mp hneg),
        Option.isSome_eq_false_iff, Option.isNone_iff_eq_none] at h
      rw [ShardedStorage.expire, if_neg hneg]
      obtain ⟨-,he,hx⟩ := Shard.expire_spec r.now r.later k n (st.shards (shardIndex hash k))
      simp only [ShardedStorage.lookup] at h
      rw [h, Option.map_none, ← h] at hx
      exact Quiet.accessed he hx
  | ttl k rest =>
    obtain ⟨he,hx⟩ := Shard.ttl_spec r.now r.later k (st.shards (shardIndex hash k))
    exact Quiet.accessed he hx
  | idle => exact Quiet.refl _ _

variable (hash)

theorem parse_line {rec : Record} (hl : rec.Loggable) : parseCommand rec.line = rec.command := by
  obtain ⟨-,hs,-⟩ := hl
  cases rec with
  | set k v =>
    obtain ⟨hk,hks⟩ := survives_iff.mp (hs k (by simp [Record.tokens]))
    obtain ⟨hv,hvs⟩ := survives_iff.mp (hs v (by simp [Record.tokens]))
    exact (parse_set_iff hk hv).mpr ⟨hks,hvs⟩
  | del k =>
    obtain ⟨hk,hks⟩ := survives_iff.mp (hs k (by simp [Record.tokens]))
    exact (parse_del_iff hk).mpr hks
  | expire k n =>
    obtain ⟨hk,hks⟩ := survives_iff.mp (hs k (by simp [Record.tokens]))
    exact (parse_expire_iff n hk).mpr hks

theorem replayLine_line {rec : Record} (r : Readings) (p : Replayed) (hl : rec.Loggable) :
    replayLine hash r rec.line p = rec.replay hash r p := by
  rw [replayLine, if_neg rec.line_ne_nil, parse_line hl]
  cases rec with
  | set k v | del k => rfl
  | expire k n =>
    have hn : stoll (stdToString n) = some n := stoll_stdToString hl.2.2.1 hl.2.2.2
    simp only [Record.command, replayCommand, hn]
    rfl

end

end CacheForge
