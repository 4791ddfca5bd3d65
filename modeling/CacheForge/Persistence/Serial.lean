import CacheForge.Library.Along
import CacheForge.Persistence.Journal

namespace CacheForge

def Unreached (now : Int) (st : ShardedStorage) : Prop :=
  ∀ i, ∀ k ∈ (st.shards i).data.keys, ((st.shards i).data.lookup k).all (fun e => !isExpired now e)

instance (now : Int) (st : ShardedStorage) : Decidable (Unreached now st) :=
  inferInstanceAs (Decidable (∀ i, ∀ k ∈ (st.shards i).data.keys, _))

theorem Unreached.live {now : Int} {st : ShardedStorage} (h : Unreached now st) (i : Fin numShards)
    (k : Str) : live now ((st.shards i).lookup k) = (st.shards i).lookup k := by
  cases hk : (st.shards i).data.lookup k with
  | none => rw [Shard.lookup_none hk, live_none]
  | some e =>
    have hm : k ∈ (st.shards i).data.keys := Shard.mem_keys.mpr (by simp [Shard.lookup_some hk])
    have he := h i k hm
    rw [hk, Option.all_some, Bool.not_eq_true', isExpired_item] at he
    rw [Shard.lookup_some hk, live_some he]

theorem Unreached.quiet {now : Int} {st st' : ShardedStorage} (h : Unreached now st)
    (hq : Quiet now st st') (i : Fin numShards) (x : Str) :
    (st'.shards i).lookup x = (st.shards i).lookup x := by
  rcases hq.shard i x with hx | ⟨hx,hl⟩
  · exact hx
  · rw [hx, ← h.live i x, hl]

section

variable (hash : Str → Nat)

def Request.expiresAtOnce (st : ShardedStorage) : Request → Bool
  | .line r text =>
      match parseCommand text with
      | ⟨.expire, k :: a :: _⟩ =>
          match stoll a with
          | some n => (st.expire hash r.now r.later k n).1 && decide (n ≤ 0)
          | none => false
      | _ => false
  | .sweep _ _ _ => false

def Calm (d : Dispatcher) (q : Request) : Prop :=
  Unreached q.now d.storage ∧ q.expiresAtOnce hash d.storage = false

instance (d : Dispatcher) (q : Request) : Decidable (Calm hash d q) :=
  inferInstanceAs (Decidable (_ ∧ _))

def CalmReplay (p : Replayed) (l : Readings × Str) : Prop := Unreached l.1.now p.storage

instance (p : Replayed) (l : Readings × Str) : Decidable (CalmReplay p l) :=
  inferInstanceAs (Decidable (Unreached _ _))

variable {hash}

theorem EffectOf.positive {r : Readings} {st st' : ShardedStorage} {text : Str} {rec : Record}
    (h : EffectOf hash r st (parseCommand text) (st', some rec))
    (hz : (Request.line r text).expiresAtOnce hash st = false) : rec.Positive := by
  cases rec with
  | set k v => trivial
  | del k => trivial
  | expire k n =>
    generalize hc : parseCommand text = cmd at h
    cases h with
    | expire k a rest n hn h =>
      simpa [Request.expiresAtOnce, hc, hn, h, Record.Positive] using hz

variable (hash)

structure Fits (K : Finset Str) (st : ShardedStorage) : Prop where
  placed : ∀ i x, (st.shards i).lookup x ≠ none → x ∈ K ∧ shardIndex hash x = i
  room : ∀ i, (K.filter (fun k => shardIndex hash k = i)).card ≤ st.maxKeysPerShard

variable {hash}

theorem Fits.size_lt {K : Finset Str} {st : ShardedStorage} (h : Fits hash K st) {k : Str}
    (hk : k ∈ K) (hn : st.lookup hash k = none) :
    (st.shards (shardIndex hash k)).size < st.maxKeysPerShard := by
  refine lt_of_lt_of_le (Finset.card_lt_card ?_) (h.room (shardIndex hash k))
  refine (Finset.ssubset_iff_of_subset fun x hx => ?_).mpr ⟨k,?_,?_⟩
  · exact Finset.mem_filter.mpr (h.placed _ x (Shard.mem_keys.mp hx))
  · exact Finset.mem_filter.mpr ⟨hk,rfl⟩
  · exact fun hm => Shard.mem_keys.mp hm hn

theorem Fits.keeps_all {K : Finset Str} {st : ShardedStorage} (h : Fits hash K st) (r : Readings)
    {rec : Record} (hk : ∀ k v, rec = .set k v → k ∈ K) :
    (rec.apply hash r st).evictedKeys = st.evictedKeys := by
  cases rec with
  | set k v =>
    have h0 := Shard.insertOrUpdate_room k v none (h.size_lt (hk k v rfl))
    simp [Record.apply, ShardedStorage.set, ShardedStorage.onShard, ShardedStorage.locked, h0]
  | del k => exact Record.apply_evicts_nothing hash r (by simp) st
  | expire k n => exact Record.apply_evicts_nothing hash r (by simp) st

theorem Fits.apply {K : Finset Str} {st : ShardedStorage} (h : Fits hash K st) (r : Readings)
    {rec : Record} (hk : ∀ k v, rec = .set k v → k ∈ K) : Fits hash K (rec.apply hash r st) := by
  refine ⟨fun i x hx => ?_,fun i => by simpa [Record.apply_capacity] using h.room i⟩
  rcases Record.apply_shard hash r rec st i x with he | ⟨-,hn,-⟩
  · rw [he] at hx
    split at hx
    · rename_i hc
      rcases Record.update_present r hx with ho | ⟨v,hv⟩
      · exact h.placed i x ho
      · rw [hc.1, hc.2]
        exact ⟨hk _ v hv,rfl⟩
    · exact h.placed i x hx
  · exact absurd hn hx

theorem Fits.quiet {K : Finset Str} {now : Int} {st st' : ShardedStorage} (h : Fits hash K st)
    (hu : Unreached now st) (hq : Quiet now st st') : Fits hash K st' := by
  refine ⟨fun i x hx => ?_,fun i => by simpa [hq.capacity] using h.room i⟩
  exact h.placed i x (hu.quiet hq i x ▸ hx)

theorem Fits.keeps {K : Finset Str} {st : ShardedStorage} (h : Fits hash K st) (r : Readings)
    (rec : Record) (hk : ∀ k v, rec = .set k v → k ∈ K) {x : Str} (hx : x ≠ rec.key) :
    (rec.apply hash r st).lookup hash x = st.lookup hash x :=
  (Record.apply_other hash r hx st).resolve_right fun hn => hn.2 (h.keeps_all r hk)

def outline (i : Item) : Str × Bool := (i.1, i.2.isSome)

theorem outline_update {r r' : Readings} {rec : Record} {x y : Option Item}
    (h : x.map outline = y.map outline) (hx : live r.now x = x) (hy : live r'.now y = y) :
    (rec.update r x).map outline = (rec.update r' y).map outline := by
  cases rec with
  | set k v => rfl
  | del k => rfl
  | expire k n =>
    simp only [Record.update, hx, hy]
    split
    · exact h
    · cases x <;> cases y <;> simp_all [outline]

theorem outline_eq {x y : Option Item} (h : x.map outline = y.map outline) :
    x.map Prod.fst = y.map Prod.fst ∧ (x.bind Prod.snd).isSome = (y.bind Prod.snd).isSome := by
  cases x <;> cases y <;> simp_all [outline]

variable (hash)

structure Mirrors (K : Finset Str) (st st' : ShardedStorage) : Prop where
  outlines : ∀ k, (st'.lookup hash k).map outline = (st.lookup hash k).map outline
  live : Fits hash K st
  restored : Fits hash K st'

variable {hash}

theorem Mirrors.apply {K : Finset Str} {st st' : ShardedStorage} (h : Mirrors hash K st st')
    {r r' : Readings} (hu : Unreached r.now st) (hu' : Unreached r'.now st') {rec : Record}
    (hk : ∀ k v, rec = .set k v → k ∈ K) :
    Mirrors hash K (rec.apply hash r st) (rec.apply hash r' st') := by
  refine ⟨fun x => ?_,h.live.apply r hk,h.restored.apply r' hk⟩
  by_cases hx : x = rec.key
  · rw [hx, Record.apply_self, Record.apply_self]
    exact outline_update (h.outlines _) (hu'.live _ _) (hu.live _ _)
  · rw [h.live.keeps r rec hk hx, h.restored.keeps r' rec hk hx]
    exact h.outlines x

theorem Mirrors.quiet {K : Finset Str} {now : Int} {st st₁ st' : ShardedStorage}
    (h : Mirrors hash K st st') (hu : Unreached now st) (hq : Quiet now st st₁) :
    Mirrors hash K st₁ st' := by
  refine ⟨fun x => ?_,h.live.quiet hu hq,h.restored⟩
  rw [h.outlines x, ShardedStorage.lookup, ShardedStorage.lookup, hu.quiet hq]

variable (hash)

theorem serial_mirrors {maxKeys : Nat} {startTime : Int} {clock : Nat → Readings} {K : Finset Str}
    (hroom : ∀ i, (K.filter (fun k => shardIndex hash k = i)).card ≤ max 1 (maxKeys / numShards))
    {qs : List Request} (hd : ∀ q ∈ qs, q.Durable) (hK : ∀ q ∈ qs, ∀ k ∈ q.setKey, k ∈ K)
    (hlive : Along.Holds (Dispatcher.handle hash) (Calm hash) (.fresh maxKeys startTime) qs)
    (hrep : Along.Holds (fun p l => replayLine hash l.1 l.2 p) CalmReplay
      ⟨.create maxKeys, .zero⟩ (timed clock (Session.run hash qs (.start maxKeys)).lines)) :
    Mirrors hash K (Session.run hash qs (.start maxKeys)).storage
      (recover hash clock (Session.run hash qs (.start maxKeys)).records
        ⟨.create maxKeys, .zero⟩).storage ∧
    (recover hash clock (Session.run hash qs (.start maxKeys)).records
      ⟨.create maxKeys, .zero⟩).stats =
        ⟨(Session.run hash qs (.start maxKeys)).records.length, 0, 0⟩ := by
  induction qs using List.reverseRecOn with
  | nil =>
    have hf : Fits hash K (.create maxKeys) :=
      ⟨fun i x hx => absurd rfl hx,hroom⟩
    exact ⟨⟨fun _ => rfl,hf,hf⟩,rfl⟩
  | append_singleton qs q ih =>
    obtain ⟨hlive,hu,hz⟩ := Along.holds_snoc.mp hlive
    have hst := (serve_session hash maxKeys startTime qs).1
    rw [serve] at hst
    rw [hst] at hu hz
    have hd' : ∀ q ∈ qs, q.Durable := fun q h => hd q (by simp [h])
    have ih := ih hd' (fun q h => hK q (by simp [h])) hlive
    have hrecov := replayLines_recover hash clock ⟨.create maxKeys, .zero⟩
      (Session.records_loggable hash maxKeys hd')
    rw [Session.run_snoc] at hrep ⊢
    rcases Session.step_cases hash (Session.run hash qs (.start maxKeys)) q
      with ⟨st,hs,hq⟩ | ⟨r,text,rec,rfl,hs,he⟩
    · rw [hs] at hrep ⊢
      obtain ⟨hm,hstats⟩ := ih hrep
      exact ⟨hm.quiet hu hq,hstats⟩
    · rw [hs, Session.lines_logged, timed_snoc] at hrep
      obtain ⟨hrep,hu'⟩ := Along.holds_snoc.mp hrep
      obtain ⟨hm,hstats⟩ := ih hrep
      have hk : ∀ k v, rec = .set k v → k ∈ K := by
        rintro k v rfl
        exact hK (.line r text) (by simp) k he.setKey
      simp only [CalmReplay] at hu'
      rw [← replayLines, Session.lines, hrecov, List.length_map] at hu'
      rw [hs, Session.records_logged, recover_snoc,
        Record.replay_positive hash _ (he.positive hz)]
      refine ⟨hm.apply hu hu' hk,?_⟩
      simp [Replayed.applied, hstats]

theorem replay_restores_serial_run (maxKeys : Nat) (startTime : Int) (clock : Nat → Readings)
    (qs : List Request) (hd : ∀ q ∈ qs, q.Durable)
    (hroom : ∀ i, ((qs.filterMap Request.setKey).toFinset.filter
      (fun k => shardIndex hash k = i)).card ≤ max 1 (maxKeys / numShards))
    (hlive : Along.Holds (Dispatcher.handle hash) (Calm hash) (.fresh maxKeys startTime) qs)
    (hrep : Along.Holds (fun p l => replayLine hash l.1 l.2 p) CalmReplay
      ⟨.create maxKeys, .zero⟩ (timed clock (serve hash qs (.fresh maxKeys startTime)).logged)) :
    let d := serve hash qs (.fresh maxKeys startTime)
    let p := replay hash clock (some (aofFile d.logged)) (.create maxKeys)
    (∀ k, (p.storage.lookup hash k).map Prod.fst = (d.storage.lookup hash k).map Prod.fst ∧
      ((p.storage.lookup hash k).bind Prod.snd).isSome =
        ((d.storage.lookup hash k).bind Prod.snd).isSome) ∧
    p.stats.commandsReplayed = d.logged.length ∧ p.stats.errors = 0 := by
  rw [serve_logged] at hrep
  obtain ⟨hm,hstats⟩ := serial_mirrors hash (K := (qs.filterMap Request.setKey).toFinset) hroom hd
    (fun q hq k hk => by simpa using ⟨q,hq,hk⟩) hlive hrep
  intro d p
  have hp : p = recover hash clock (Session.run hash qs (.start maxKeys)).records
    ⟨.create maxKeys, .zero⟩ := replay_served hash clock _ hd
  have hl : d.logged.length = (Session.run hash qs (.start maxKeys)).records.length :=
    logged_length hash maxKeys startTime qs
  rw [hp, hl, hstats, (serve_session hash maxKeys startTime qs).1]
  exact ⟨fun k => outline_eq (hm.outlines k),rfl,rfl⟩

end

def mixedRun : List Request :=
  [.line ⟨0, 0⟩ "SET a \"one two\"".toList, .line ⟨1, 1⟩ "SET b 2".toList,
    .line ⟨2, 2⟩ "EXPIRE a 100".toList, .line ⟨3, 3⟩ "GET a".toList,
    .sweep 4 ⟨0, by decide⟩ [['a'], ['b']], .line ⟨5, 5⟩ "DEL b".toList, .line ⟨6, 6⟩ "DEL b".toList]

def mixedRestart : Replayed :=
  replay (fun _ => 0) (fun _ => ⟨9, 9⟩)
    (some (aofFile (serve (fun _ => 0) mixedRun (.fresh 32 0)).logged)) (.create 32)

theorem mixed_run_restored :
    (mixedRestart.storage.lookup (fun _ => 0) ['a']).map Prod.fst = some "one two".toList ∧
    ((mixedRestart.storage.lookup (fun _ => 0) ['a']).bind Prod.snd).isSome = true ∧
    (mixedRestart.storage.lookup (fun _ => 0) ['b']).map Prod.fst = none ∧
    mixedRestart.stats.commandsReplayed = 4 ∧ mixedRestart.stats.errors = 0 := by
  have h := replay_restores_serial_run (fun _ => 0) 32 0 (fun _ => ⟨9, 9⟩) mixedRun
    (by decide +kernel) (by decide +kernel) (by decide +kernel) (by decide +kernel)
  refine ⟨(h.1 ['a']).1.trans ?_,(h.1 ['a']).2.trans ?_,(h.1 ['b']).1.trans ?_,h.2.1.trans ?_,h.2.2⟩
  · decide +kernel
  · decide +kernel
  · decide +kernel
  · decide +kernel

end CacheForge
