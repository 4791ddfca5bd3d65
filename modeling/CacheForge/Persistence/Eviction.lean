import CacheForge.Library.Along
import CacheForge.Persistence.Journal
import CacheForge.Storage.History

namespace CacheForge

open Recency (Cache)

namespace Reference

theorem visit_timeless {R : Type} {c : Cache Str Item} {k : Str} (now : Int) (absent : R)
    (hit : Item → R × Cache Str Item) (h : ∀ item, c.find k = some item → item.2 = none) :
    visit now k absent hit c =
      match c.find k with
      | none => (absent, c)
      | some item => hit item := by
  unfold visit
  cases hf : c.find k with
  | none => rfl
  | some item => simp [itemExpired, h item hf]

end Reference

structure Retraces (order : List Str) (c d : Cache Str Item) : Prop where
  same : c.SameItems d
  ordered : d.OrderedBy order
  timeless : ∀ k item, d.find k = some item → item.2 = none

namespace Retraces

variable {order : List Str} {c d : Cache Str Item}

theorem untimed (h : Retraces order c d) {k : Str} (item : Item) (hf : c.find k = some item) :
    item.2 = none := h.timeless k item (h.same.items k ▸ hf)

theorem get (h : Retraces order c d) (now : Int) (k : Str) :
    Retraces order (Reference.get now k c).2 d := by
  rw [Reference.get, Reference.visit_timeless now _ _ h.untimed]
  split
  · exact h
  · rename_i item hf
    exact ⟨h.same.promote hf,h.ordered,h.timeless⟩

theorem sweep (h : Retraces order c d) (now : Int) (keys : List Str) :
    (Reference.sweep now keys c).2 = c := by
  unfold Reference.sweep
  induction keys.take Shard.maxScanPerSweep with
  | nil => rfl
  | cons k ks ih =>
    have hk : Reference.sweepKey now k c = c := by
      rw [Reference.sweepKey, Reference.visit_timeless now _ _ h.untimed]
      split <;> rfl
    rw [List.foldl_cons, hk]
    exact ih

theorem del (h : Retraces order c d) (now now' : Int) (k : Str) :
    Retraces order (Reference.del now k c).2 (Reference.del now' k d).2 := by
  rw [Reference.del, Reference.del, Reference.visit_timeless now _ _ h.untimed,
    Reference.visit_timeless now' _ _ (h.timeless k), h.same.items k]
  split
  · exact h
  · refine ⟨h.same.remove k,h.ordered.remove k,fun x item hx => ?_⟩
    rw [Cache.find_remove] at hx
    split at hx
    · cases hx
    · exact h.timeless x item hx

theorem del_absent (h : Retraces order c d) {now : Int} {k : Str}
    (hr : (Reference.del now k c).1 = false) : (Reference.del now k c).2 = c := by
  rw [Reference.del, Reference.visit_timeless now _ _ h.untimed] at hr ⊢
  split
  · rfl
  · rename_i item hf
    simp [hf] at hr

theorem put (h : Retraces order c d) {k : Str} (v : Str) (hv : d.victim k = c.victim k) :
    Retraces (Cache.touch k order) (c.put k (v, none)) (d.put k (v, none)) := by
  refine ⟨h.same.put _ hv,h.ordered.put k _,fun x item hx => ?_⟩
  rw [Cache.find_put] at hx
  split at hx
  · cases hx
    rfl
  · split at hx
    · cases hx
    · exact h.timeless x item hx

theorem touch (h : Retraces order c d) {k : Str} (hk : k ∉ d.entries) :
    Retraces (Cache.touch k order) c d := ⟨h.same,h.ordered.touch hk,h.timeless⟩

theorem victim_iff (h : Retraces order c d) (k : Str) : d.victim k = c.victim k ↔
    ∀ e ∈ c.victim k, (order.filter (fun x => x ∈ c.entries)).getLast? = some e := by
  have hkeys : order.filter (fun x => x ∈ c.entries) = d.entries.keys := by
    rw [h.ordered]
    exact List.filter_congr fun x _ => by simp [h.same.mem]
  rw [hkeys]
  cases hc : c.victim k with
  | none =>
    have hd : d.victim k = none := by
      rwa [Cache.victim_none, h.same.mem, h.same.size, h.same.capacity, ← Cache.victim_none]
    simp [hd]
  | some e =>
    have hd : ¬(k ∈ d.entries ∨ d.size < d.capacity) := by
      rw [h.same.mem, h.same.size, h.same.capacity, ← Cache.victim_none, hc]
      exact Option.some_ne_none e
    rw [Cache.victim, if_neg hd]
    simp

end Retraces

namespace Request

def Plain : Request → Prop
  | line _ text => (parseCommand text).type ∈ [.set, .get, .del]
  | sweep _ _ _ => True

instance : DecidablePred Plain
  | line _ _ => inferInstanceAs (Decidable (_ ∈ _))
  | sweep _ _ _ => isTrue trivial

end Request

structure Tracked where
  server : Dispatcher
  setOrder : List Str

def oldestSet (order : List Str) (s : Shard) : Option Str :=
  (order.filter (fun k => (s.lookup k).isSome)).getLast?

def Request.orders (q : Request) (order : List Str) : List Str :=
  match q.setKey with
  | none => order
  | some k => Cache.touch k order

section

variable (hash : Str → Nat)

def Tracked.step (t : Tracked) (q : Request) : Tracked :=
  ⟨t.server.handle hash q, q.orders t.setOrder⟩

def OldestGoes (order : List Str) (st : ShardedStorage) (k : Str) : Prop :=
  ∀ e ∈ (st.shards (shardIndex hash k)).insertEvictees st.maxKeysPerShard k,
    oldestSet order (st.shards (shardIndex hash k)) = some e

def EvictsOldest (t : Tracked) (q : Request) : Prop :=
  ∀ k ∈ q.setKey, OldestGoes hash t.setOrder t.server.storage k

instance (order : List Str) (st : ShardedStorage) (k : Str) :
    Decidable (OldestGoes hash order st k) := inferInstanceAs (Decidable (∀ e ∈ _, _ = some e))

instance (t : Tracked) (q : Request) : Decidable (EvictsOldest hash t q) :=
  Option.decidableForallMem (o := q.setKey)

def Retraced (order : List Str) (st st' : ShardedStorage) : Prop :=
  ∃ ref ref' : Reference, Simulates hash st ref ∧ Simulates hash st' ref' ∧
    ∀ i, Retraces order (ref i) (ref' i)

variable {hash} {order : List Str} {st st' : ShardedStorage}

namespace Retraced

theorem lookup (h : Retraced hash order st st') (k : Str) :
    st'.lookup hash k = st.lookup hash k := by
  obtain ⟨ref,ref',hs,hs',hr⟩ := h
  rw [ShardedStorage.lookup, ShardedStorage.lookup, (hs.shards _).items, (hs'.shards _).items]
  exact (hr _).same.items k

theorem get (h : Retraced hash order st st') (now : Int) (k : Str) :
    Retraced hash order (st.get hash now k).2 st' := by
  obtain ⟨ref,ref',hs,hs',hr⟩ := h
  refine ⟨_,ref',(hs.call (.get now k)).2,hs',fun i => ?_⟩
  change Retraces order ((ref.locked (shardIndex hash k) (Reference.get now k)).2 i) (ref' i)
  rw [Reference.locked_at]
  split
  · rename_i hi
    rw [hi]
    exact (hr _).get now k
  · exact hr i

theorem sweepShard (h : Retraced hash order st st') (now : Int) (j : Fin numShards)
    (keys : List Str) : Retraced hash order (st.sweepShard now j keys) st' := by
  obtain ⟨ref,ref',hs,hs',hr⟩ := h
  refine ⟨_,ref',(hs.call (.sweepShard now j keys)).2,hs',fun i => ?_⟩
  change Retraces order ((ref.locked j (Reference.sweep now keys)).2 i) (ref' i)
  rw [Reference.locked_at, (hr j).sweep now keys]
  split
  · rename_i hi
    rw [hi]
    exact hr j
  · exact hr i

theorem del (h : Retraced hash order st st') (now now' : Int) (k : Str) :
    Retraced hash order (st.del hash now k).2 (st'.del hash now' k).2 := by
  obtain ⟨ref,ref',hs,hs',hr⟩ := h
  refine ⟨_,_,(hs.call (.del now k)).2,(hs'.call (.del now' k)).2,fun i => ?_⟩
  change Retraces order ((ref.locked (shardIndex hash k) (Reference.del now k)).2 i)
    ((ref'.locked (shardIndex hash k) (Reference.del now' k)).2 i)
  rw [Reference.locked_at, Reference.locked_at]
  split
  · exact (hr _).del now now' k
  · exact hr i

theorem del_absent (h : Retraced hash order st st') {now : Int} {k : Str}
    (hd : (st.del hash now k).1 = false) : Retraced hash order (st.del hash now k).2 st' := by
  obtain ⟨ref,ref',hs,hs',hr⟩ := h
  obtain ⟨hreply,hs₁⟩ := hs.call (.del now k)
  have hmiss : (Reference.del now k (ref (shardIndex hash k))).1 = false := by
    have hflag : Reply.flag (st.del hash now k).1 =
        .flag (Reference.del now k (ref (shardIndex hash k))).1 := hreply
    rwa [Reply.flag.injEq, hd, eq_comm] at hflag
  refine ⟨_,ref',hs₁,hs',fun i => ?_⟩
  change Retraces order ((ref.locked (shardIndex hash k) (Reference.del now k)).2 i) (ref' i)
  rw [Reference.locked_at, (hr _).del_absent hmiss]
  split
  · rename_i hi
    rw [hi]
    exact hr _
  · exact hr i

theorem evicts_iff {ref ref' : Reference} (hs : Simulates hash st ref)
    (hr : ∀ i, Retraces order (ref i) (ref' i)) (k : Str) :
    OldestGoes hash order st k ↔
      (ref' (shardIndex hash k)).victim k = (ref (shardIndex hash k)).victim k := by
  have hshard := hs.shards (shardIndex hash k)
  have hheld : oldestSet order (st.shards (shardIndex hash k)) =
      (order.filter (fun x => x ∈ (ref (shardIndex hash k)).entries)).getLast? := by
    refine congrArg List.getLast? (List.filter_congr fun x _ => ?_)
    rw [hshard.items, Bool.eq_iff_iff, decide_eq_true_iff]
    exact AList.lookup_isSome
  rw [OldestGoes, hs.capacity (shardIndex hash k), Shard.insertEvictees_victim hshard, hheld,
    (hr _).victim_iff]
  simp

theorem set (h : Retraced hash order st st') {k : Str} (v : Str)
    (hk : OldestGoes hash order st k) :
    Retraced hash (Cache.touch k order) (st.set hash k v) (st'.set hash k v) := by
  obtain ⟨ref,ref',hs,hs',hr⟩ := h
  refine ⟨_,_,(hs.call (.set k v)).2,(hs'.call (.set k v)).2,fun i => ?_⟩
  change Retraces _ ((ref.locked (shardIndex hash k) (Reference.put k (v, none))).2 i)
    ((ref'.locked (shardIndex hash k) (Reference.put k (v, none))).2 i)
  rw [Reference.locked_at, Reference.locked_at]
  split
  · exact (hr _).put v ((evicts_iff hs hr k).mp hk)
  · rename_i hi
    exact (hr i).touch fun hm => hi (hs'.home i k hm).symm

theorem evicts_oldest (h : Retraced hash order st st') {k v : Str}
    (hl : ∀ x, (st'.set hash k v).lookup hash x = (st.set hash k v).lookup hash x) :
    OldestGoes hash order st k := by
  obtain ⟨ref,ref',hs,hs',hr⟩ := h
  refine (evicts_iff hs hr k).mpr ((hr _).same.victim (v := (v, none)) fun x => ?_)
  have hset := (hs.call (.set k v)).2
  have hset' := (hs'.call (.set k v)).2
  have hput (ref : Reference) : ((ref.call hash (.set k v)).2 (shardIndex hash k)) =
      (ref (shardIndex hash k)).put k (v, none) := by
    change (ref.locked (shardIndex hash k) (Reference.put k (v, none))).2 _ = _
    rw [Reference.locked_at, if_pos rfl]
    rfl
  have hx := hl x
  rw [← hput, ← hput]
  by_cases hi : shardIndex hash x = shardIndex hash k
  · rw [ShardedStorage.lookup, ShardedStorage.lookup, hi] at hx
    rw [← (hset.shards _).items, ← (hset'.shards _).items]
    exact hx
  · rw [Cache.find_none.mpr fun hm => hi (hset.home _ x hm),
      Cache.find_none.mpr fun hm => hi (hset'.home _ x hm)]

theorem request {q : Request} (h : Retraced hash order st st') (hp : q.Plain)
    (hq : ∀ k ∈ q.setKey, OldestGoes hash order st k) (r' : Readings) :
    Retraced hash (q.orders order) (q.effect hash st).1
      ((q.effect hash st).2.elim st' (fun y => y.2.apply hash r' st')) := by
  cases q with
  | sweep now i keys => exact h.sweepShard now i keys
  | line r text =>
    simp only [Request.Plain, Request.setKey, Request.orders, Request.effect] at hp hq ⊢
    generalize parseCommand text = cmd at hp hq ⊢
    obtain ⟨type,args⟩ := cmd
    cases type with
    | ping | expire | ttl | stats | unknown => simp at hp
    | set =>
      rcases args with _ | ⟨k,_ | ⟨v,rest⟩⟩
      · exact h
      · exact h
      · exact h.set v (hq k rfl)
    | get =>
      rcases args with _ | ⟨k,rest⟩
      · exact h
      · exact h.get r.now k
    | del =>
      rcases args with _ | ⟨k,rest⟩
      · exact h
      · simp only [effect, Command.setKey]
        cases hd : (st.del hash r.now k).1 with
        | true => exact h.del r.now r'.now k
        | false => exact h.del_absent hd

theorem request_oldest {q : Request} {k : Str} (hk : k ∈ q.setKey) (h : Retraced hash order st st')
    {r' : Readings}
    (hl : ∀ x, ((q.effect hash st).2.elim st' (fun y => y.2.apply hash r' st')).lookup hash x =
      (q.effect hash st).1.lookup hash x) : OldestGoes hash order st k := by
  cases q with
  | sweep now i keys => cases hk
  | line r text =>
    simp only [Request.setKey, Request.effect] at hk hl
    generalize parseCommand text = cmd at hk hl
    obtain ⟨type,args⟩ := cmd
    cases type with
    | set =>
      rcases args with _ | ⟨x,_ | ⟨v,rest⟩⟩
      · cases hk
      · cases hk
      · cases hk
        exact h.evicts_oldest hl
    | ping | get | del | expire | ttl | stats | unknown => simp [Command.setKey] at hk

end Retraced

theorem plain_positive {q : Request} (hp : q.Plain) {y : Readings × Record}
    (h : y ∈ (q.effect hash st).2) : y.2.Positive := by
  cases q with
  | sweep now i keys => cases h
  | line r text =>
    obtain ⟨rec,hrec,rfl⟩ := Option.map_eq_some_iff.mp h
    have he := effect_logs hrec
    cases rec with
    | set k v | del k => trivial
    | expire k n =>
      obtain ⟨a,rest,hc,-⟩ := he.number.1
      simp [Request.Plain, hc] at hp

variable (hash)

def restored (maxKeys : Nat) (clock : Nat → Readings) (qs : List Request) : ShardedStorage :=
  (recover hash clock (Session.run hash qs (.start maxKeys)).records
    ⟨.create maxKeys, .zero⟩).storage

theorem restored_snoc {maxKeys : Nat} (clock : Nat → Readings) (qs : List Request) {q : Request}
    (hp : q.Plain) :
    restored hash maxKeys clock (qs ++ [q]) =
      (q.effect hash (Session.run hash qs (.start maxKeys)).storage).2.elim
        (restored hash maxKeys clock qs)
        (fun y => y.2.apply hash (clock (Session.run hash qs (.start maxKeys)).records.length)
          (restored hash maxKeys clock qs)) := by
  rw [restored, Session.run_snoc, Session.records, Session.step]
  cases he : (q.effect hash (Session.run hash qs (.start maxKeys)).storage).2 with
  | none => simp [restored, Session.records]
  | some y =>
    rw [Option.toList_some, List.map_append, List.map_singleton, recover_snoc,
      Record.replay_positive hash _ (plain_positive hp he)]
    rfl

section

variable {maxKeys : Nat} {startTime : Int}

theorem tracked_storage (qs : List Request) :
    (qs.foldl (Tracked.step hash) ⟨.fresh maxKeys startTime, []⟩).server.storage =
      (Session.run hash qs (.start maxKeys)).storage := by
  have hserver (t : Tracked) :
      (qs.foldl (Tracked.step hash) t).server = serve hash qs t.server := by
    induction qs generalizing t with
    | nil => rfl
    | cons q qs ih => exact ih (t.step hash q)
  rw [hserver, (serve_session hash maxKeys startTime qs).1]

theorem tracked_retraced (clock : Nat → Readings) {qs : List Request} (hp : ∀ q ∈ qs, q.Plain)
    (h : Along.Holds (Tracked.step hash) (EvictsOldest hash) ⟨.fresh maxKeys startTime, []⟩ qs) :
    Retraced hash (qs.foldl (Tracked.step hash) ⟨.fresh maxKeys startTime, []⟩).setOrder
      (Session.run hash qs (.start maxKeys)).storage (restored hash maxKeys clock qs) := by
  induction qs using List.reverseRecOn with
  | nil =>
    have hs := Simulates.create hash maxKeys
    refine ⟨_,_,hs,hs,fun i => ⟨⟨rfl,fun _ => rfl⟩,rfl,fun k item hk => ?_⟩⟩
    cases hk
  | append_singleton qs q ih =>
    obtain ⟨h,hq⟩ := Along.holds_snoc.mp h
    have hr := ih (fun q hq => hp q (by simp [hq])) h
    have hplain := hp q (by simp)
    rw [EvictsOldest, tracked_storage] at hq
    rw [List.foldl_append, List.foldl_cons, List.foldl_nil, Session.run_snoc,
      restored_snoc hash clock qs hplain]
    exact hr.request hplain hq _

theorem tracked_oldest (clock : Nat → Readings) {qs : List Request} (hp : ∀ q ∈ qs, q.Plain)
    (h : ∀ pre, pre <+: qs → ∀ k, (restored hash maxKeys clock pre).lookup hash k =
      (Session.run hash pre (.start maxKeys)).storage.lookup hash k) :
    Along.Holds (Tracked.step hash) (EvictsOldest hash) ⟨.fresh maxKeys startTime, []⟩ qs := by
  induction qs using List.reverseRecOn with
  | nil => trivial
  | append_singleton qs q ih =>
    have hpast : ∀ q ∈ qs, q.Plain := fun q hq => hp q (by simp [hq])
    have hholds := ih hpast fun pre hpre => h pre (hpre.trans (List.prefix_append _ _))
    refine Along.holds_snoc.mpr ⟨hholds,fun k hk => ?_⟩
    have hlast := h (qs ++ [q]) List.prefix_rfl
    rw [Session.run_snoc, restored_snoc hash clock qs (hp q (by simp))] at hlast
    rw [tracked_storage]
    exact (tracked_retraced hash clock hpast hholds).request_oldest hk hlast

end

theorem replay_keeps_evictions (maxKeys : Nat) (startTime : Int) (clock : Nat → Readings)
    (qs : List Request) (hd : ∀ q ∈ qs, q.Durable) (hp : ∀ q ∈ qs, q.Plain) :
    (∀ pre, pre <+: qs → ∀ k,
      (replay hash clock (some (aofFile (serve hash pre (.fresh maxKeys startTime)).logged))
        (.create maxKeys)).storage.lookup hash k =
      (serve hash pre (.fresh maxKeys startTime)).storage.lookup hash k) ↔
    Along.Holds (Tracked.step hash) (EvictsOldest hash) ⟨.fresh maxKeys startTime, []⟩ qs := by
  have hreplay (pre : List Request) (hpre : pre <+: qs) :
      (replay hash clock (some (aofFile (serve hash pre (.fresh maxKeys startTime)).logged))
        (.create maxKeys)).storage = restored hash maxKeys clock pre := by
    rw [replay_served hash clock _ fun q hq => hd q (hpre.subset hq), restored]
  have hlive (pre : List Request) := (serve_session hash maxKeys startTime pre).1
  constructor
  · intro h
    refine tracked_oldest hash clock hp fun pre hpre k => ?_
    rw [← hreplay pre hpre, ← hlive pre]
    exact h pre hpre k
  · intro h pre hpre k
    rw [hreplay pre hpre, hlive pre]
    obtain ⟨post,rfl⟩ := hpre
    exact (tracked_retraced hash clock (fun q hq => hp q (by simp [hq]))
      (Along.holds_append.mp h).1).lookup k

end

def crowdedRun (between : List Request) : List Request :=
  [.line ⟨0, 0⟩ "SET a 1".toList, .line ⟨0, 0⟩ "SET b 2".toList] ++ between ++
    [.line ⟨0, 0⟩ "SET c 3".toList]

def readBetween : List Request :=
  crowdedRun [.line ⟨0, 0⟩ "SET d 4".toList, .line ⟨0, 0⟩ "GET b".toList]

theorem crowded_run_restored :
    (serve (fun _ => 0) readBetween (.fresh 48 0)).storage.lookup (fun _ => 0) ['a'] = none ∧
    ∀ k, (replay (fun _ => 0) (fun _ => ⟨0, 0⟩) (some (aofFile (serve (fun _ => 0) readBetween
        (.fresh 48 0)).logged)) (.create 48)).storage.lookup (fun _ => 0) k =
      (serve (fun _ => 0) readBetween (.fresh 48 0)).storage.lookup (fun _ => 0) k :=
  ⟨by decide +kernel,(replay_keeps_evictions (fun _ => 0) 48 0 (fun _ => ⟨0, 0⟩) readBetween
    (by decide +kernel) (by decide +kernel)).mpr (by decide +kernel) _ List.prefix_rfl⟩

theorem unlogged_read_changes_eviction :
    let d := serve (fun _ => 0) (crowdedRun [.line ⟨0, 0⟩ "GET a".toList]) (.fresh 32 0)
    let p := replay (fun _ => 0) (fun _ => ⟨0, 0⟩) (some (aofFile d.logged)) (.create 32)
    d.storage.lookup (fun _ => 0) ['a'] = some (['1'], none) ∧
    d.storage.lookup (fun _ => 0) ['b'] = none ∧
    p.storage.lookup (fun _ => 0) ['a'] = none ∧
    p.storage.lookup (fun _ => 0) ['b'] = some (['2'], none) := by
  decide +kernel

end CacheForge
