import CacheForge.Storage.Calls

namespace CacheForge

def Call.touches (hash : Str → Nat) : Call → Finset (Fin numShards)
  | .set key _ => {shardIndex hash key}
  | .setWithTTL _ key _ _ => {shardIndex hash key}
  | .get _ key => {shardIndex hash key}
  | .del _ key => {shardIndex hash key}
  | .expire _ _ key _ => {shardIndex hash key}
  | .ttl _ _ key => {shardIndex hash key}
  | .size => Finset.univ
  | .sweepShard _ i _ => {i}

theorem Call.touches_nonempty (hash : Str → Nat) (x : Call) : (x.touches hash).Nonempty := by
  cases x with
  | size => exact ⟨⟨0, Nat.succ_pos 15⟩,Finset.mem_univ _⟩
  | _ => exact Finset.singleton_nonempty _

theorem Call.touches_one {hash : Str → Nat} {x y : Call}
    (h : Disjoint (x.touches hash) (y.touches hash)) : x.touches hash ≠ Finset.univ := by
  intro he
  obtain ⟨i,hi⟩ := y.touches_nonempty hash
  exact Finset.disjoint_left.mp h (he ▸ Finset.mem_univ i) hi

def Outcome.map {R R' : Type} (f : R → R') (o : Outcome R) : Outcome R' :=
  ⟨f o.result, o.shard, o.expired, o.evicted⟩

namespace ShardedStorage

theorem locked_idle {R : Type} (r : R) (i : Fin numShards) (st : ShardedStorage) :
    st.locked i (fun s => ⟨r, s, 0, 0⟩) = (r, st) := by
  simp [locked]

theorem locked_commute {R R' : Type} {i j : Fin numShards} (h : i ≠ j) (op : Shard → Outcome R)
    (op' : Shard → Outcome R') (st : ShardedStorage) :
    ((st.locked j op').2.locked i op).1 = (st.locked i op).1 ∧
      ((st.locked i op).2.locked j op').1 = (st.locked j op').1 ∧
      ((st.locked i op).2.locked j op').2 = ((st.locked j op').2.locked i op).2 := by
  simp [locked, h, h.symm, Function.update_comm h, Nat.add_right_comm]

theorem call_locked {hash : Str → Nat} {x : Call} (h : x.touches hash ≠ Finset.univ) :
    ∃ i, ∃ op : Nat → Shard → Outcome Reply, x.touches hash = {i} ∧
      ∀ st : ShardedStorage, st.call hash x = st.locked i (op st.maxKeysPerShard) := by
  cases x with
  | set k v =>
    exact ⟨_,fun cap s => (s.insertOrUpdate cap k v none).map (fun _ => .done),rfl,fun _ => rfl⟩
  | setWithTTL now k v seconds =>
    exact ⟨_,fun cap s => (s.insertOrUpdate cap k v
      (if seconds < 0 then none else some (deadlineAfter now seconds))).map (fun _ => .done),rfl,
      fun _ => rfl⟩
  | get now k => exact ⟨_,fun _ s => (s.get now k).map .value,rfl,fun _ => rfl⟩
  | del now k => exact ⟨_,fun _ s => (s.del now k).map .flag,rfl,fun _ => rfl⟩
  | expire now later k seconds =>
    by_cases hs : seconds < 0
    · refine ⟨_,fun _ s => ⟨.flag false, s, 0, 0⟩,rfl,fun st => ?_⟩
      rw [locked_idle, call, expire, if_pos hs]
      rfl
    · refine ⟨_,fun _ s => (s.expire now later k seconds).map .flag,rfl,fun st => ?_⟩
      rw [call, expire, if_neg hs]
      rfl
  | ttl now later k => exact ⟨_,fun _ s => (s.ttl now later k).map .seconds,rfl,fun _ => rfl⟩
  | size => exact absurd rfl h
  | sweepShard now i order =>
    exact ⟨i,fun _ s => (s.sweepShard now order).map (fun _ => .done),rfl,fun _ => rfl⟩

theorem call_independent {hash : Str → Nat} {x y : Call}
    (h : Disjoint (x.touches hash) (y.touches hash)) :
    Transducer.Independent (call hash) x y := by
  obtain ⟨i,op,hi,hop⟩ := call_locked (Call.touches_one h)
  obtain ⟨j,op',hj,hop'⟩ := call_locked (Call.touches_one h.symm)
  rw [hi, hj, Finset.disjoint_singleton] at h
  have hc (st : ShardedStorage) := locked_commute h (op st.maxKeysPerShard)
    (op' st.maxKeysPerShard) st
  refine ⟨fun st => ?_,fun st => ?_,fun st => ?_⟩
  · rw [hop' st, hop, hop]
    exact (hc st).1
  · rw [hop st, hop', hop']
    exact (hc st).2.1
  · rw [hop st, hop' st, hop', hop]
    exact (hc st).2.2

def interleaved (hash : Str → Nat) (zs : List (Call ⊕ Call)) (st : ShardedStorage) :
    List (Reply ⊕ Reply) × ShardedStorage := Transducer.run (Transducer.tagged (call hash)) zs st

end ShardedStorage

theorem disjoint_shards_independent (hash : Str → Nat) (st : ShardedStorage) (xs ys : List Call)
    (h : ∀ x ∈ xs, ∀ y ∈ ys, Disjoint (x.touches hash) (y.touches hash)) (zs : List (Call ⊕ Call))
    (hx : Transducer.lefts zs = xs) (hy : Transducer.rights zs = ys) :
    (Transducer.lefts (st.interleaved hash zs).1 = (st.calls hash xs).1 ∧
      Transducer.rights (st.interleaved hash zs).1 = ((st.calls hash xs).2.calls hash ys).1 ∧
      (st.interleaved hash zs).2 = ((st.calls hash xs).2.calls hash ys).2) ∧
    Transducer.rights (st.interleaved hash zs).1 = (st.calls hash ys).1 ∧
      Transducer.lefts (st.interleaved hash zs).1 = ((st.calls hash ys).2.calls hash xs).1 ∧
      (st.interleaved hash zs).2 = ((st.calls hash ys).2.calls hash xs).2 := by
  subst hx hy
  have hind : ∀ x ∈ Transducer.lefts zs, ∀ y ∈ Transducer.rights zs,
      Transducer.Independent (ShardedStorage.call hash) x y := fun x hx y hy =>
    ShardedStorage.call_independent (h x hx y hy)
  obtain ⟨hl,hr,hs⟩ := Transducer.run_tagged hind st
  obtain ⟨hright,hstate⟩ := Transducer.run_commute hind st
  have hleft := (Transducer.run_commute (fun y hy x hx => (hind x hx y hy).symm) st).1
  exact ⟨⟨hl,hr,hs⟩,hr.trans hright,hl.trans hleft.symm,hs.trans hstate⟩

def leftCalls : List Call := [.set ['a'] ['1'], .set ['q'] ['3'], .get 5 ['q']]

def rightCalls : List Call := [.setWithTTL 0 ['b'] ['2'] 1, .get 2000000000 ['b']]

def mixedCalls : List (Call ⊕ Call) :=
  [.inl (.set ['a'] ['1']), .inr (.setWithTTL 0 ['b'] ['2'] 1), .inl (.set ['q'] ['3']),
    .inr (.get 2000000000 ['b']), .inl (.get 5 ['q'])]

def firstLetter (key : Str) : Nat := (key.head?.map Char.toNat).getD 0

theorem mixed_calls_independent :
    Transducer.lefts ((ShardedStorage.create 16).interleaved firstLetter mixedCalls).1 =
        [.done, .done, .value (some ['3'])] ∧
      ((ShardedStorage.create 16).interleaved firstLetter mixedCalls).2.expiredKeys = 1 ∧
      ((ShardedStorage.create 16).interleaved firstLetter mixedCalls).2.evictedKeys = 1 := by
  obtain ⟨⟨hl,-,hs⟩,-⟩ := disjoint_shards_independent firstLetter (.create 16) leftCalls rightCalls
    (by decide) mixedCalls rfl rfl
  rw [hl, hs]
  exact ⟨by decide +kernel,by decide +kernel,by decide +kernel⟩

end CacheForge
