import CacheForge.Storage.Reference

namespace CacheForge

def Outcome.total {R : Type} (w : R → Nat) (o : Outcome R) : Nat :=
  o.shard.size + w o.result + o.expired + o.evicted

namespace Shard

theorem removeEntry_size {s : Shard} {k : Str} {e : Entry} (h : s.data.lookup k = some e) :
    (s.removeEntry k e).size + 1 = s.size := by
  have hk : k ∈ s.data.keys := Finmap.mem_keys.mpr (Finmap.mem_of_lookup_eq_some h)
  rw [size, size, removeEntry, Finmap.keys_erase]
  exact Finset.card_erase_add_one hk

theorem insert_size (s : Shard) (k : Str) (e : Entry) (order : List Node) (n : Nat) :
    (Shard.mk (s.data.insert k e) order n).size = s.size + if k ∈ s.data then 0 else 1 := by
  have hkeys : (s.data.insert k e).keys = insert k s.data.keys := by
    ext x
    rw [Finmap.mem_keys, Finmap.mem_insert, Finset.mem_insert, Finmap.mem_keys]
  rw [size, size, hkeys, Finset.card_insert_eq_ite]
  simp only [Finmap.mem_keys]
  split <;> rfl

theorem access_total {R : Type} {w : R → Nat} {now : Int} {k : Str} {absent : R}
    {hit : Entry → Outcome R} {s : Shard} (hw : w absent = 0)
    (hhit : ∀ e, s.data.lookup k = some e → (hit e).total w = s.size) :
    (s.access now k absent hit).total w = s.size := by
  unfold access
  cases hk : s.data.lookup k with
  | none => simp [Outcome.total, hw]
  | some e =>
    dsimp only
    split
    · simp [Outcome.total, removeExpiredEntry, hw, removeEntry_size hk]
    · exact hhit e hk

theorem setDeadline_total {s : Shard} {k : Str} {e : Entry} (h : s.data.lookup k = some e)
    (deadline : Int) : (s.setDeadline deadline k e).total (fun _ => 0) = s.size := by
  have hk : k ∈ s.data := Finmap.mem_of_lookup_eq_some h
  simp [Outcome.total, setDeadline, insert_size, hk]

theorem report_total (later : Int) (s : Shard) (e : Entry) :
    (s.report later e).total (fun _ => 0) = s.size := by
  unfold report
  split <;> simp [Outcome.total]

theorem sweepEntry_total (now : Int) (o : Outcome Unit) (k : Str) :
    (sweepEntry now o k).total (fun _ => 0) = o.total (fun _ => 0) := by
  unfold sweepEntry
  cases hk : o.shard.data.lookup k with
  | none => rfl
  | some e =>
    dsimp only
    split
    · have hs := removeEntry_size hk
      simp only [Outcome.total]
      omega
    · rfl

theorem sweepShard_total (now : Int) (order : List Str) (s : Shard) :
    (s.sweepShard now order).total (fun _ => 0) = s.size := by
  have hfold (ks : List Str) (o : Outcome Unit) :
      (ks.foldl (sweepEntry now) o).total (fun _ => 0) = o.total (fun _ => 0) := by
    induction ks generalizing o with
    | nil => rfl
    | cons k ks ih => exact (ih _).trans (sweepEntry_total now o k)
  exact (hfold _ _).trans (by simp [Outcome.total])

theorem insertOrUpdate_total {s : Shard} {c : Recency.Cache Str Item} (h : Represents s c)
    (k v : Str) (d : Option Int) :
    (s.insertOrUpdate c.capacity k v d).total (fun _ => 0) =
      s.size + if k ∈ s.data then 0 else 1 := by
  unfold insertOrUpdate
  cases hk : s.data.lookup k with
  | some e =>
    have hm : k ∈ s.data := Finmap.mem_of_lookup_eq_some hk
    simp [Outcome.total, insert_size, hm]
  | none =>
    have hm : k ∉ s.data := Finmap.lookup_eq_none.mp hk
    rcases Nat.lt_or_ge s.size c.capacity with hroom | hfull
    · simp [Outcome.total, evictIfNeeded_room hroom, pushFront, insert_size, hm]
    · obtain ⟨node,hn,hlast,hroom⟩ := h.back hfull
      have hnode : node.key ∈ c.entries := AList.mem_keys.mpr (List.mem_of_mem_getLast? hlast)
      have hsize : (s.dropBack node).size + 1 = s.size := by
        rw [(h.dropBack hn).size, Recency.Cache.size_remove hnode, h.size]
      have hdrop : k ∉ (s.dropBack node).data := fun hx => hm (Finmap.mem_erase.mp hx).2
      simp [Outcome.total, evictIfNeeded_once hfull hn hroom, pushFront, insert_size, hdrop, hm]
      omega

end Shard

def Call.deletes : Call → Reply → Bool
  | .del _ _, .flag b => b
  | _, _ => false

structure Audit where
  created : Bool
  deleted : Bool
  deriving DecidableEq, Repr

namespace ShardedStorage

def creates (hash : Str → Nat) (st : ShardedStorage) : Call → Bool
  | .set key _ => key ∉ (st.shards (shardIndex hash key)).data
  | .setWithTTL _ key _ _ => key ∉ (st.shards (shardIndex hash key)).data
  | _ => false

def audit (hash : Str → Nat) (st : ShardedStorage) (x : Call) : Audit × ShardedStorage :=
  (⟨st.creates hash x, x.deletes (st.call hash x).1⟩, (st.call hash x).2)

def accounted (st : ShardedStorage) : Nat := st.size + st.expiredKeys + st.evictedKeys

theorem locked_size {R : Type} (i : Fin numShards) (op : Shard → Outcome R) (st : ShardedStorage) :
    (st.locked i op).2.size + (st.shards i).size = st.size + (op (st.shards i)).shard.size := by
  have hsize (t : ShardedStorage) : t.size = ∑ j, (t.shards j).size := (Fin.sum_univ_def _).symm
  have hupdate : (fun j => ((st.locked i op).2.shards j).size) =
      Function.update (fun j => (st.shards j).size) i (op (st.shards i)).shard.size := by
    funext j
    rw [locked_shards]
    by_cases hj : j = i <;> simp [hj]
  have hold := Finset.add_sum_erase Finset.univ (fun j => (st.shards j).size) (Finset.mem_univ i)
  rw [hsize, hsize, hupdate, Finset.sum_update_of_mem (Finset.mem_univ i),
    Finset.sdiff_singleton_eq_erase]
  omega

theorem locked_accounted {R : Type} {i : Fin numShards} {op : Shard → Outcome R}
    {s : ShardedStorage} {w : R → Nat} {n : Nat}
    (h : (op (s.shards i)).total w = (s.shards i).size + n) :
    (s.locked i op).2.accounted + w (s.locked i op).1 = s.accounted + n := by
  have hsize := locked_size i op s
  simp only [Outcome.total, accounted, locked] at h hsize ⊢
  omega

theorem call_accounted {hash : Str → Nat} {st : ShardedStorage} {ref : Reference}
    (h : Simulates hash st ref) (x : Call) :
    (st.call hash x).2.accounted + (x.deletes (st.call hash x).1).toNat =
      st.accounted + (st.creates hash x).toNat := by
  have hput (k v : Str) (d : Option Int) := locked_accounted (s := st) (w := fun _ => 0)
    (h.capacity (shardIndex hash k) ▸
      Shard.insertOrUpdate_total (h.shards (shardIndex hash k)) k v d)
  have hnew (k : Str) : (if k ∈ (st.shards (shardIndex hash k)).data then 0 else 1) =
      (decide (k ∉ (st.shards (shardIndex hash k)).data)).toNat := by
    by_cases hk : k ∈ (st.shards (shardIndex hash k)).data <;> simp [hk]
  cases x with
  | set k v => exact (hput k v none).trans (congrArg _ (hnew k))
  | setWithTTL now k v seconds => exact (hput k v _).trans (congrArg _ (hnew k))
  | get now k =>
    exact locked_accounted (w := fun _ => 0) (Shard.access_total rfl fun e he => rfl)
  | del now k =>
    exact locked_accounted (w := Bool.toNat) (Shard.access_total rfl fun e he =>
      Shard.removeEntry_size he)
  | expire now later k seconds =>
    by_cases hs : seconds < 0
    · rw [call, expire, if_pos hs]
      rfl
    · rw [call, expire, if_neg hs]
      exact locked_accounted (w := fun _ => 0) (Shard.access_total rfl fun e he =>
        Shard.setDeadline_total he _)
  | ttl now later k =>
    exact locked_accounted (w := fun _ => 0) (Shard.access_total rfl fun e _ =>
      Shard.report_total later _ e)
  | size => rfl
  | sweepShard now i order =>
    exact locked_accounted (w := fun _ => 0) (Shard.sweepShard_total now order _)

theorem audits_accounted {hash : Str → Nat} (cs : List Call) {st : ShardedStorage} {ref : Reference}
    (h : Simulates hash st ref) :
    (Transducer.run (audit hash) cs st).2.accounted +
        (Transducer.run (audit hash) cs st).1.countP Audit.deleted =
      st.accounted + (Transducer.run (audit hash) cs st).1.countP Audit.created := by
  induction cs generalizing st ref with
  | nil => rfl
  | cons x cs ih =>
    have hx := call_accounted h x
    have hrest := ih (h.call x).2
    simp only [Transducer.run, List.countP_cons, audit] at hrest ⊢
    cases hd : x.deletes (st.call hash x).1 <;> cases hc : st.creates hash x <;>
      simp only [hd, hc, Bool.toNat_true, Bool.toNat_false, if_true, if_false, Bool.false_eq_true]
        at hx ⊢ <;> omega

end ShardedStorage

theorem keys_conserved (hash : Str → Nat) (maxKeys : Nat) (cs : List Call) :
    let r := Transducer.run (ShardedStorage.audit hash) cs (.create maxKeys)
    r.2 = ((ShardedStorage.create maxKeys).calls hash cs).2 ∧
      r.1.countP Audit.created =
        r.2.size + r.1.countP Audit.deleted + r.2.expiredKeys + r.2.evictedKeys := by
  have h := ShardedStorage.audits_accounted cs (Simulates.create hash maxKeys)
  refine ⟨?_,?_⟩
  · exact Transducer.run_state (f := ShardedStorage.audit hash) (g := ShardedStorage.call hash)
      (fun _ _ => rfl) cs _
  · have hzero : (ShardedStorage.create maxKeys).accounted = 0 := by
      simp [ShardedStorage.accounted, ShardedStorage.size, ShardedStorage.create, Shard.size,
        Shard.empty]
    rw [hzero, ShardedStorage.accounted] at h
    omega

end CacheForge
