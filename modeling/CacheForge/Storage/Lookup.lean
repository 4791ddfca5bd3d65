import CacheForge.Storage.ShardedStorage

namespace CacheForge

abbrev Item := Str × Option Int

def Entry.item (e : Entry) : Item := (e.value, e.expiresAt)

def itemExpired (now : Int) (x : Item) : Bool :=
  match x.2 with
  | none => false
  | some d => decide (d ≤ now)

def live (now : Int) (x : Option Item) : Option Item := x.filter (fun i => !itemExpired now i)

theorem isExpired_item (now : Int) (e : Entry) : isExpired now e = itemExpired now e.item := rfl

@[simp] theorem live_none (now : Int) : live now none = none := rfl

theorem live_some {now : Int} {x : Item} (h : itemExpired now x = false) :
    live now (some x) = some x := by simp [live, h]

theorem live_expired {now : Int} {x : Item} (h : itemExpired now x = true) :
    live now (some x) = none := by simp [live, h]

theorem live_eq_some {now : Int} {x : Option Item} {i : Item} (h : live now x = some i) :
    x = some i := (Option.filter_eq_some_iff.mp h).1

namespace Shard

def lookup (s : Shard) (k : Str) : Option Item := (s.data.lookup k).map Entry.item

theorem lookup_mk (data : Finmap (fun _ : Str => Entry)) (order : List Node) (n : Nat) (k : Str) :
    (Shard.mk data order n).lookup k = (data.lookup k).map Entry.item := rfl

theorem lookup_none {s : Shard} {k : Str} (h : s.data.lookup k = none) : s.lookup k = none := by
  simp [lookup, h]

theorem lookup_some {s : Shard} {k : Str} {e : Entry} (h : s.data.lookup k = some e) :
    s.lookup k = some e.item := by simp [lookup, h]

theorem mem_keys {s : Shard} {k : Str} : k ∈ s.data.keys ↔ s.lookup k ≠ none := by
  rw [Finmap.mem_keys, ← Finmap.lookup_isSome, lookup]
  cases s.data.lookup k <;> simp

theorem removeEntry_lookup (s : Shard) (k : Str) (e : Entry) (x : Str) :
    (s.removeEntry k e).lookup x = if x = k then none else s.lookup x := by
  split
  · rename_i h
    simp [removeEntry, lookup_mk, h]
  · rename_i h
    simp [removeEntry, Finmap.lookup_erase_ne h, lookup]

theorem insert_lookup (s : Shard) (k : Str) (e : Entry) (order : List Node) (n : Nat) (x : Str) :
    (Shard.mk (s.data.insert k e) order n).lookup x = if x = k then some e.item else s.lookup x := by
  split
  · rename_i h
    simp [lookup_mk, h]
  · rename_i h
    simp [Finmap.lookup_insert_of_ne _ h, lookup]

theorem update_self {s : Shard} {k : Str} {y : Option Item} (h : s.lookup k = y) (x : Str) :
    s.lookup x = if x = k then y else s.lookup x := by
  split
  · rename_i hx
    rw [hx, h]
  · rfl

theorem access_cases {R : Type} (now : Int) (k : Str) (absent : R) (hit : Entry → Outcome R)
    (s : Shard) :
    (live now (s.lookup k) = none ∧ (s.access now k absent hit).result = absent ∧
      (s.access now k absent hit).evicted = 0 ∧
      ∀ x, (s.access now k absent hit).shard.lookup x = if x = k then none else s.lookup x) ∨
    ∃ e, s.data.lookup k = some e ∧ live now (s.lookup k) = some e.item ∧
      s.access now k absent hit = hit e := by
  unfold access
  cases h : s.data.lookup k with
  | none =>
    refine Or.inl ⟨?_,rfl,rfl,update_self (lookup_none h)⟩
    rw [lookup_none h, live_none]
  | some e =>
    rw [lookup_some h]
    cases he : isExpired now e with
    | true =>
      have hx := live_expired (isExpired_item now e ▸ he)
      exact Or.inl ⟨hx,by simp [he, removeExpiredEntry],by simp [he, removeExpiredEntry],
        by simpa [he, removeExpiredEntry] using removeEntry_lookup s k e⟩
    | false => exact Or.inr ⟨e,rfl,live_some (isExpired_item now e ▸ he),by simp [he]⟩

theorem get_spec (now : Int) (k : Str) (s : Shard) :
    (s.get now k).result = (live now (s.lookup k)).map Prod.fst ∧
    (s.get now k).evicted = 0 ∧
    ∀ x, (s.get now k).shard.lookup x = if x = k then live now (s.lookup k) else s.lookup x := by
  unfold get
  rcases access_cases now k none s.moveToFront s with ⟨hl,hr,he,hx⟩ | ⟨e,hk,hl,heq⟩
  · rw [hl]
    exact ⟨hr,he,hx⟩
  · rw [hl, heq]
    exact ⟨rfl,rfl,update_self (lookup_some hk)⟩

theorem del_spec (now : Int) (k : Str) (s : Shard) :
    (s.del now k).result = (live now (s.lookup k)).isSome ∧
    (s.del now k).evicted = 0 ∧
    ∀ x, (s.del now k).shard.lookup x = if x = k then none else s.lookup x := by
  unfold del
  rcases access_cases now k false (s.erase k) s with ⟨hl,hr,he,hx⟩ | ⟨e,hk,hl,heq⟩
  · rw [hl]
    exact ⟨hr,he,hx⟩
  · rw [hl, heq]
    exact ⟨rfl,rfl,removeEntry_lookup s k e⟩

theorem expire_spec (now later : Int) (k : Str) (seconds : Int) (s : Shard) :
    (s.expire now later k seconds).result = (live now (s.lookup k)).isSome ∧
    (s.expire now later k seconds).evicted = 0 ∧
    ∀ x, (s.expire now later k seconds).shard.lookup x =
      if x = k then (live now (s.lookup k)).map (fun i => (i.1, some (deadlineAfter later seconds)))
      else s.lookup x := by
  unfold expire
  rcases access_cases now k false (s.setDeadline (deadlineAfter later seconds) k) s
    with ⟨hl,hr,he,hx⟩ | ⟨e,hk,hl,heq⟩
  · rw [hl]
    exact ⟨hr,he,hx⟩
  · rw [hl, heq]
    exact ⟨rfl,rfl,insert_lookup s k _ _ _⟩

theorem ttl_spec (now later : Int) (k : Str) (s : Shard) :
    (s.ttl now later k).evicted = 0 ∧
    ∀ x, (s.ttl now later k).shard.lookup x =
      if x = k then live now (s.lookup k) else s.lookup x := by
  unfold ttl
  rcases access_cases now k (-2) (s.report later) s with ⟨hl,hr,he,hx⟩ | ⟨e,hk,hl,heq⟩
  · rw [hl]
    exact ⟨he,hx⟩
  · rw [hl, heq]
    unfold report
    split <;> exact ⟨rfl,update_self (lookup_some hk)⟩

def reported (later : Int) : Option Item → Int
  | none => -2
  | some (_, none) => -1
  | some (_, some d) => remaining later d

theorem ttl_reported (now later : Int) (k : Str) (s : Shard) :
    (s.ttl now later k).result = reported later (live now (s.lookup k)) := by
  unfold ttl
  rcases access_cases now k (-2) (s.report later) s with ⟨hl,hr,-⟩ | ⟨e,-,hl,heq⟩
  · rw [hl]
    exact hr
  · obtain ⟨v,d,a⟩ := e
    rw [hl, heq]
    cases d <;> rfl

theorem sweepEntry_lookup (now : Int) (o : Outcome Unit) (k x : Str) :
    (sweepEntry now o k).evicted = o.evicted ∧
    ((sweepEntry now o k).shard.lookup x = o.shard.lookup x ∨
      (sweepEntry now o k).shard.lookup x = none ∧ live now (o.shard.lookup x) = none) := by
  unfold sweepEntry
  cases h : o.shard.data.lookup k with
  | none => exact ⟨rfl,Or.inl rfl⟩
  | some e =>
    cases he : isExpired now e with
    | false => simp [he]
    | true =>
      simp only [he, if_true, removeEntry_lookup, true_and]
      by_cases hx : x = k
      · subst hx
        exact Or.inr ⟨by simp,lookup_some h ▸ live_expired (isExpired_item now e ▸ he)⟩
      · exact Or.inl (by simp [hx])

theorem sweepShard_spec (now : Int) (order : List Str) (s : Shard) :
    (s.sweepShard now order).evicted = 0 ∧
    ∀ x, (s.sweepShard now order).shard.lookup x = s.lookup x ∨
      (s.sweepShard now order).shard.lookup x = none ∧ live now (s.lookup x) = none := by
  unfold sweepShard
  induction order.take maxScanPerSweep using List.reverseRecOn with
  | nil => simp
  | append_singleton ks k ih =>
    rw [List.foldl_append, List.foldl_cons, List.foldl_nil]
    set o := ks.foldl (sweepEntry now) ⟨(), s, 0, 0⟩ with ho
    refine ⟨(sweepEntry_lookup now o k k).1.trans ih.1,fun x => ?_⟩
    rcases (sweepEntry_lookup now o k x).2 with hx | ⟨hx,hl⟩
    · exact hx ▸ ih.2 x
    · refine Or.inr ⟨hx,?_⟩
      rcases ih.2 x with hs | ⟨-,hs⟩
      · exact hs ▸ hl
      · exact hs

theorem evictIfNeeded_room {cap : Nat} {s : Shard} (h : s.size < cap) :
    s.evictIfNeeded cap = ⟨(), s, 0, 0⟩ := by
  rw [evictIfNeeded, if_pos h]

def dropBack (node : Node) (s : Shard) : Shard :=
  { s with data := s.data.erase node.key, lruOrder := s.lruOrder.dropLast }

theorem evictIfNeeded_once {cap : Nat} {s : Shard} {node : Node} (hfull : cap ≤ s.size)
    (hn : s.lruOrder.getLast? = some node) (hroom : (s.dropBack node).size < cap) :
    s.evictIfNeeded cap = ⟨(), s.dropBack node, 0, 1⟩ := by
  rw [evictIfNeeded, if_neg (not_lt.mpr hfull)]
  split
  · rename_i hnone
    simp [hnone] at hn
  · rename_i node' hs
    cases hn.symm.trans hs
    have hr := evictIfNeeded_room hroom
    rw [dropBack] at hr ⊢
    rw [hr]

theorem evictIfNeeded_spec (cap : Nat) (s : Shard) :
    ((s.evictIfNeeded cap).evicted = 0 → (s.evictIfNeeded cap).shard = s) ∧
    ∀ x, (s.evictIfNeeded cap).shard.lookup x = s.lookup x ∨
      (s.evictIfNeeded cap).shard.lookup x = none := by
  induction s using evictIfNeeded.induct cap with
  | case1 s h => simp [evictIfNeeded_room h]
  | case2 s h hn =>
    rw [evictIfNeeded, if_neg h]
    split
    · simp
    · rename_i node hs
      simp [hn] at hs
  | case3 s h node hs ih =>
    rw [evictIfNeeded, if_neg h]
    split
    · rename_i hn
      simp [hn] at hs
    · rename_i node' hs'
      rw [hs] at hs'
      cases hs'
      refine ⟨by simp,fun x => ?_⟩
      rcases ih.2 x with hx | hx
      · simp only [hx, lookup_mk]
        by_cases hk : x = node.key
        · exact Or.inr (by rw [hk, Finmap.lookup_erase]; rfl)
        · exact Or.inl (by simp [Finmap.lookup_erase_ne hk, lookup])
      · exact Or.inr hx

theorem insertOrUpdate_spec (cap : Nat) (k v : Str) (d : Option Int) (s : Shard) :
    (s.insertOrUpdate cap k v d).shard.lookup k = some (v, d) ∧
    (∀ x, x ≠ k → (s.insertOrUpdate cap k v d).shard.lookup x = s.lookup x ∨
      (s.insertOrUpdate cap k v d).shard.lookup x = none) ∧
    ((s.insertOrUpdate cap k v d).evicted = 0 →
      ∀ x, x ≠ k → (s.insertOrUpdate cap k v d).shard.lookup x = s.lookup x) := by
  unfold insertOrUpdate
  cases h : s.data.lookup k with
  | some e =>
    have hx (x : Str) (hne : x ≠ k) := insert_lookup s k ⟨v, d, e.lruIter⟩
      (spliceFront e.lruIter s.lruOrder) s.nextAddress x
    refine ⟨by simp [insert_lookup, Entry.item],fun x hne => Or.inl ?_,fun _ x hne => ?_⟩
    · simpa [hne] using hx x hne
    · simpa [hne] using hx x hne
  | none =>
    have he := evictIfNeeded_spec cap s
    simp only [pushFront]
    refine ⟨by simp [insert_lookup, Entry.item],fun x hne => ?_,fun h0 x hne => ?_⟩
    · simpa [insert_lookup, hne] using he.2 x
    · simp [insert_lookup, hne, he.1 h0]

theorem insertOrUpdate_room {cap : Nat} {s : Shard} (k v : Str) (d : Option Int)
    (h : s.lookup k = none → s.size < cap) : (s.insertOrUpdate cap k v d).evicted = 0 := by
  unfold insertOrUpdate
  cases hk : s.data.lookup k with
  | some e => rfl
  | none => simp [evictIfNeeded_room (h (lookup_none hk))]

end Shard

namespace ShardedStorage

theorem locked_shards {R : Type} (i : Fin numShards) (op : Shard → Outcome R) (st : ShardedStorage)
    (j : Fin numShards) :
    (st.locked i op).2.shards j = if j = i then (op (st.shards i)).shard else st.shards j := by
  simp only [locked, Function.update_apply]

theorem locked_pointwise {R : Type} {i : Fin numShards} {op : Shard → Outcome R} {k : Str}
    {st : ShardedStorage} {y : Option Item} (h : ∀ x, (op (st.shards i)).shard.lookup x =
      if x = k then y else (st.shards i).lookup x) (j : Fin numShards) (x : Str) :
    ((st.locked i op).2.shards j).lookup x =
      if x = k ∧ j = i then y else (st.shards j).lookup x := by
  rw [locked_shards]
  by_cases hj : j = i
  · simp [hj, h x]
  · simp [hj]

variable (hash : Str → Nat)

def lookup (st : ShardedStorage) (k : Str) : Option Item := (st.shards (shardIndex hash k)).lookup k

theorem get_result (now : Int) (k : Str) (st : ShardedStorage) :
    (st.get hash now k).1 = (live now (st.lookup hash k)).map Prod.fst :=
  (Shard.get_spec now k _).1

theorem del_result (now : Int) (k : Str) (st : ShardedStorage) :
    (st.del hash now k).1 = (live now (st.lookup hash k)).isSome :=
  (Shard.del_spec now k _).1

theorem expire_result {seconds : Int} (now later : Int) (k : Str) (st : ShardedStorage)
    (hs : 0 ≤ seconds) :
    (st.expire hash now later k seconds).1 = (live now (st.lookup hash k)).isSome := by
  rw [expire, if_neg (not_lt.mpr hs)]
  exact (Shard.expire_spec now later k seconds _).1

theorem ttl_reported (now later : Int) (k : Str) (st : ShardedStorage) :
    (st.ttl hash now later k).1 = Shard.reported later (live now (st.lookup hash k)) :=
  Shard.ttl_reported now later k _

end ShardedStorage

end CacheForge
