import CacheForge.Storage.Reference

namespace CacheForge

structure Shard.WellFormed (hash : Str → Nat) (i : Fin numShards) (cap : Nat) (s : Shard) :
    Prop where
  noDuplicates : (s.lruOrder.map Node.key).Nodup
  sameKeys : ∀ k, k ∈ s.lruOrder.map Node.key ↔ k ∈ s.data
  ownNode : ∀ k e, s.data.lookup k = some e →
    s.lruOrder.filter (fun n => n.address = e.lruIter) = [⟨e.lruIter, k⟩]
  home : ∀ k ∈ s.data, shardIndex hash k = i
  bounded : s.size ≤ cap
  back : cap ≤ s.size → ∃ node, s.lruOrder.getLast? = some node ∧ (s.dropBack node).size < cap
  evictsOnce : (s.evictIfNeeded cap).evicted ≤ 1

theorem Represents.ownNode {s : Shard} {c : Recency.Cache Str Item} (h : Represents s c) {k : Str}
    {e : Entry} (he : s.data.lookup k = some e) :
    s.lruOrder.filter (fun n => n.address = e.lruIter) = [⟨e.lruIter, k⟩] := by
  have hm := h.iters k e he
  have hcongr : s.lruOrder.filter (fun n => n.address = e.lruIter) =
      s.lruOrder.filter (fun n => n == ⟨e.lruIter, k⟩) := by
    refine List.filter_congr fun n hn => ?_
    have hiff : n.address = e.lruIter ↔ n = ⟨e.lruIter, k⟩ :=
      ⟨fun ha => List.inj_on_of_nodup_map h.addresses hn hm ha,fun hx => by rw [hx]⟩
    exact decide_eq_decide.mpr hiff
  rw [hcongr, List.filter_beq, List.count_eq_one_of_mem h.addresses.of_map hm]
  rfl

theorem Simulates.wellFormed {hash : Str → Nat} {st : ShardedStorage} {ref : Reference}
    (h : Simulates hash st ref) (i : Fin numShards) :
    (st.shards i).WellFormed hash i st.maxKeysPerShard := by
  have hr := h.shards i
  have hcap := h.capacity i
  refine ⟨hr.keys_nodup,fun k => ?_,fun k e he => hr.ownNode he,fun k hk => ?_,?_,
    fun hfull => ?_,?_⟩
  · rw [hr.order, hr.mem_iff, AList.mem_keys]
  · exact h.home i k ((hr.mem_iff k).mp hk)
  · rw [hr.size, hcap]
    exact (ref i).bounded
  · obtain ⟨node,hn,-,hroom⟩ := hr.back (hcap ▸ hfull)
    exact ⟨node,hn,hcap ▸ hroom⟩
  · rw [hcap]
    rcases Nat.lt_or_ge (st.shards i).size (ref i).capacity with hroom | hfull
    · simp [Shard.evictIfNeeded_room hroom]
    · obtain ⟨node,hn,-,hroom⟩ := hr.back hfull
      simp [Shard.evictIfNeeded_once hfull hn hroom]

namespace ShardedStorage

theorem call_maxKeysPerShard (hash : Str → Nat) (st : ShardedStorage) (x : Call) :
    (st.call hash x).2.maxKeysPerShard = st.maxKeysPerShard := by
  cases x with
  | expire now later k seconds =>
    simp only [call, expire]
    split <;> rfl
  | _ => rfl

theorem size_le {st : ShardedStorage} (h : ∀ i, (st.shards i).size ≤ st.maxKeysPerShard) :
    st.size ≤ numShards * st.maxKeysPerShard := by
  have hsum := List.sum_le_card_nsmul ((List.finRange numShards).map fun i => (st.shards i).size)
    st.maxKeysPerShard (by simpa using h)
  simpa [size] using hsum

end ShardedStorage

theorem calls_keep_representation (hash : Str → Nat) (maxKeys : Nat) (cs : List Call) :
    ((ShardedStorage.create maxKeys).calls hash cs).2.maxKeysPerShard =
        max 1 (maxKeys / numShards) ∧
      (∀ i, (((ShardedStorage.create maxKeys).calls hash cs).2.shards i).WellFormed hash i
        (max 1 (maxKeys / numShards))) ∧
      ((ShardedStorage.create maxKeys).calls hash cs).2.size ≤ max 16 maxKeys := by
  have hcap : ((ShardedStorage.create maxKeys).calls hash cs).2.maxKeysPerShard =
      max 1 (maxKeys / numShards) :=
    Transducer.invariant (I := fun st => st.maxKeysPerShard = max 1 (maxKeys / numShards))
      (fun st x h => (ShardedStorage.call_maxKeysPerShard hash st x).trans h) rfl cs
  have hwf := ((Simulates.create hash maxKeys).calls cs).2.wellFormed
  refine ⟨hcap,fun i => hcap ▸ hwf i,?_⟩
  refine (ShardedStorage.size_le fun i => (hwf i).bounded).trans ?_
  rw [hcap, numShards]
  omega

end CacheForge
