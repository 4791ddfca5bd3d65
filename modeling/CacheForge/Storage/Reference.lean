import CacheForge.Library.Recency
import CacheForge.Storage.Calls

namespace CacheForge

open Recency (Cache)

abbrev Reference := Fin numShards → Cache Str Item

namespace Reference

section

variable {R : Type} (now : Int) (key : Str)

def visit (absent : R) (hit : Item → R × Cache Str Item) (c : Cache Str Item) :
    R × Cache Str Item :=
  match c.find key with
  | none => (absent, c)
  | some item => if itemExpired now item then (absent, c.remove key) else hit item

def get (c : Cache Str Item) : Option Str × Cache Str Item :=
  visit now key none (fun item => (some item.1, c.put key item)) c

def del (c : Cache Str Item) : Bool × Cache Str Item :=
  visit now key false (fun _ => (true, c.remove key)) c

def expire (later seconds : Int) (c : Cache Str Item) : Bool × Cache Str Item :=
  visit now key false
    (fun item => (true, c.adjust key (item.1, some (deadlineAfter later seconds)))) c

def report (later : Int) : Option Int → Int
  | none => -1
  | some d => Shard.remaining later d

def ttl (later : Int) (c : Cache Str Item) : Int × Cache Str Item :=
  visit now key (-2) (fun item => (report later item.2, c)) c

def sweepKey (c : Cache Str Item) : Cache Str Item := (visit now key () (fun _ => ((), c)) c).2

end

def sweep (now : Int) (order : List Str) (c : Cache Str Item) : Unit × Cache Str Item :=
  ((), (order.take Shard.maxScanPerSweep).foldl (fun c key => sweepKey now key c) c)

def put (key : Str) (item : Item) (c : Cache Str Item) : Unit × Cache Str Item :=
  ((), c.put key item)

def create (maxKeys : Nat) : Reference := fun _ =>
  Cache.empty (max 1 (maxKeys / numShards)) (lt_of_lt_of_le Nat.zero_lt_one (le_max_left ..))

def locked {R : Type} (i : Fin numShards) (op : Cache Str Item → R × Cache Str Item)
    (ref : Reference) : R × Reference := ((op (ref i)).1, Function.update ref i (op (ref i)).2)

def size (ref : Reference) : Nat := ((List.finRange numShards).map (fun i => (ref i).size)).sum

variable (hash : Str → Nat)

def call (ref : Reference) : Call → Reply × Reference
  | .set key value =>
      (ref.locked (shardIndex hash key) (put key (value, none))).map (fun _ => .done) id
  | .setWithTTL now key value seconds =>
      (ref.locked (shardIndex hash key) (put key (value,
        if seconds < 0 then none else some (deadlineAfter now seconds)))).map (fun _ => .done) id
  | .get now key => (ref.locked (shardIndex hash key) (get now key)).map .value id
  | .del now key => (ref.locked (shardIndex hash key) (del now key)).map .flag id
  | .expire now later key seconds =>
      if seconds < 0 then (.flag false, ref)
      else (ref.locked (shardIndex hash key) (expire now key later seconds)).map .flag id
  | .ttl now later key =>
      (ref.locked (shardIndex hash key) (ttl now key later)).map .seconds id
  | .size => (.count ref.size, ref)
  | .sweepShard now i order => (ref.locked i (sweep now order)).map (fun _ => .done) id

def calls (cs : List Call) (ref : Reference) : List Reply × Reference :=
  Transducer.run (call hash) cs ref

end Reference

structure Represents (s : Shard) (c : Cache Str Item) : Prop where
  order : s.lruOrder.map Node.key = c.entries.keys
  items : ∀ k, s.lookup k = c.find k
  iters : ∀ k e, s.data.lookup k = some e → ⟨e.lruIter, k⟩ ∈ s.lruOrder
  addresses : (s.lruOrder.map Node.address).Nodup
  fresh : ∀ n ∈ s.lruOrder, n.address < s.nextAddress

namespace Represents

variable {s : Shard} {c : Cache Str Item}

theorem empty (capacity : Nat) (positive : 0 < capacity) :
    Represents Shard.empty (Cache.empty capacity positive) :=
  ⟨rfl,fun _ => rfl,fun k e h => by simp [Shard.empty] at h,by simp [Shard.empty],
    by simp [Shard.empty]⟩

theorem keys_nodup (h : Represents s c) : (s.lruOrder.map Node.key).Nodup :=
  h.order ▸ c.entries.keys_nodup

theorem mem_iff (h : Represents s c) (k : Str) : k ∈ s.data ↔ k ∈ c.entries := by
  rw [← Finmap.lookup_isSome, ← AList.lookup_isSome]
  have hk : (s.data.lookup k).map Entry.item = c.entries.lookup k := h.items k
  rw [← hk, Option.isSome_map]

theorem size (h : Represents s c) : s.size = c.size := by
  have hk : s.data.keys = c.entries.keys.toFinset := by
    ext k
    rw [Finmap.mem_keys, List.mem_toFinset, h.mem_iff, AList.mem_keys]
  rw [Shard.size, hk, List.toFinset_card_of_nodup c.entries.keys_nodup]
  exact List.length_map ..

theorem node_iff (h : Represents s c) {k : Str} {e : Entry} (he : s.data.lookup k = some e)
    {n : Node} (hn : n ∈ s.lruOrder) : n.address = e.lruIter ↔ n.key = k := by
  have hk := h.iters k e he
  constructor
  · intro ha
    exact congrArg Node.key (List.inj_on_of_nodup_map h.addresses hn hk ha)
  · intro hx
    exact congrArg Node.address (List.inj_on_of_nodup_map h.keys_nodup hn hk hx)

theorem eraseNode_keys (h : Represents s c) {k : Str} {e : Entry}
    (he : s.data.lookup k = some e) :
    (eraseNode e.lruIter s.lruOrder).map Node.key = (c.remove k).entries.keys := by
  rw [Cache.keys_remove, ← h.order, List.filter_map, eraseNode]
  refine congrArg (List.map Node.key) (List.filter_congr fun n hn => ?_)
  simp [h.node_iff he hn]

theorem spliceFront_eq (h : Represents s c) {k : Str} {e : Entry}
    (he : s.data.lookup k = some e) :
    spliceFront e.lruIter s.lruOrder = ⟨e.lruIter, k⟩ :: eraseNode e.lruIter s.lruOrder := by
  have hk := h.iters k e he
  unfold spliceFront
  cases hf : s.lruOrder.find? (fun n => n.address = e.lruIter) with
  | none => simpa using List.find?_eq_none.mp hf _ hk
  | some n =>
    have ha : n.address = e.lruIter := by simpa using List.find?_some hf
    have hn : n = ⟨e.lruIter, k⟩ :=
      List.inj_on_of_nodup_map h.addresses (List.mem_of_find?_eq_some hf) hk ha
    rw [hn]

theorem lookup_present (h : Represents s c) {k : Str} {e : Entry}
    (he : s.data.lookup k = some e) : k ∈ c.entries ∧ c.find k = some e.item := by
  have hf := (h.items k).symm.trans (Shard.lookup_some he)
  refine ⟨?_,hf⟩
  rw [← AList.lookup_isSome]
  exact Option.isSome_of_mem hf

theorem removeEntry (h : Represents s c) {k : Str} {e : Entry} (he : s.data.lookup k = some e) :
    Represents (s.removeEntry k e) (c.remove k) := by
  have hsub : (eraseNode e.lruIter s.lruOrder).Sublist s.lruOrder := List.filter_sublist
  refine ⟨?_,?_,?_,h.addresses.sublist (hsub.map _),fun n hn => h.fresh n (hsub.subset hn)⟩
  · exact h.eraseNode_keys he
  · intro x
    rw [Shard.removeEntry_lookup]
    split
    · rename_i hx
      rw [hx]
      exact (AList.lookup_erase k c.entries).symm
    · rename_i hx
      exact (h.items x).trans (AList.lookup_erase_ne hx).symm
  · intro x d hd
    have hx : x ≠ k := by
      rintro rfl
      simp [Shard.removeEntry] at hd
    have hd' : s.data.lookup x = some d := by
      simpa [Shard.removeEntry, Finmap.lookup_erase_ne hx] using hd
    have hm := h.iters x d hd'
    refine List.mem_filter.mpr ⟨hm,?_⟩
    have hne := (h.node_iff he hm).not.mpr hx
    simpa using hne

theorem insert_items (h : Represents s c) (k v : Str) (d : Option Int) (a : Nat)
    (order : List Node) (n : Nat) (x : Str) :
    (Shard.mk (s.data.insert k ⟨v, d, a⟩) order n).lookup x =
      (c.entries.insert k (v, d)).lookup x := by
  rw [Shard.insert_lookup]
  split
  · rename_i hx
    rw [hx, AList.lookup_insert]
    rfl
  · rename_i hx
    rw [AList.lookup_insert_ne hx]
    exact h.items x

theorem eraseNode_other (h : Represents s c) {k x : Str} {e d : Entry}
    (he : s.data.lookup k = some e) (hd : s.data.lookup x = some d) (hx : x ≠ k) :
    ⟨d.lruIter, x⟩ ∈ eraseNode e.lruIter s.lruOrder := by
  have hm := h.iters x d hd
  have hne := (h.node_iff he hm).not.mpr hx
  exact List.mem_filter.mpr ⟨hm,by simpa using hne⟩

theorem spliced (h : Represents s c) {k : Str} {e : Entry} (he : s.data.lookup k = some e)
    (item : Item) :
    (spliceFront e.lruIter s.lruOrder).map Node.key = (c.put k item).entries.keys ∧
    ((spliceFront e.lruIter s.lruOrder).map Node.address).Nodup ∧
    (∀ n ∈ spliceFront e.lruIter s.lruOrder, n.address < s.nextAddress) ∧
    ∀ x d, s.data.lookup x = some d → ⟨d.lruIter, x⟩ ∈ spliceFront e.lruIter s.lruOrder := by
  have hsub : (eraseNode e.lruIter s.lruOrder).Sublist s.lruOrder := List.filter_sublist
  have hk := h.iters k e he
  have hkeys : (c.put k item).entries.keys = k :: (c.remove k).entries.keys := by
    rw [Cache.put_present item (h.lookup_present he).1]
    rfl
  rw [h.spliceFront_eq he, hkeys]
  refine ⟨?_,?_,?_,?_⟩
  · rw [List.map_cons, h.eraseNode_keys he]
  · refine List.nodup_cons.mpr ⟨?_,h.addresses.sublist (hsub.map _)⟩
    intro hm
    obtain ⟨n,hn,ha⟩ := List.mem_map.mp hm
    simp [eraseNode, ha] at hn
  · intro n hn
    rcases List.mem_cons.mp hn with rfl | hn
    · exact h.fresh _ hk
    · exact h.fresh n (hsub.subset hn)
  · intro x d hd
    by_cases hx : x = k
    · subst hx
      cases he.symm.trans hd
      exact List.mem_cons_self
    · exact List.mem_cons_of_mem _ (h.eraseNode_other he hd hx)

theorem update (h : Represents s c) {k : Str} {e : Entry} (he : s.data.lookup k = some e)
    (v : Str) (d : Option Int) :
    Represents { s with data := s.data.insert k ⟨v, d, e.lruIter⟩
                        lruOrder := spliceFront e.lruIter s.lruOrder } (c.put k (v, d)) := by
  obtain ⟨hkeys,haddr,hfresh,hiters⟩ := h.spliced he (v, d)
  refine ⟨hkeys,fun x => ?_,fun x y hy => ?_,haddr,hfresh⟩
  · rw [Cache.find, Cache.put_present _ (h.lookup_present he).1]
    exact h.insert_items k v d _ _ _ x
  · by_cases hx : x = k
    · subst hx
      rw [Finmap.lookup_insert] at hy
      cases hy
      exact hiters x e he
    · rw [Finmap.lookup_insert_of_ne _ hx] at hy
      exact hiters x y hy

theorem moveToFront (h : Represents s c) {k : Str} {e : Entry} (he : s.data.lookup k = some e) :
    Represents (s.moveToFront e).shard (c.put k e.item) := by
  obtain ⟨hkeys,haddr,hfresh,hiters⟩ := h.spliced he e.item
  refine ⟨hkeys,fun x => ?_,hiters,haddr,hfresh⟩
  obtain ⟨hm,hf⟩ := h.lookup_present he
  rw [Cache.find, Cache.put_present _ hm]
  by_cases hx : x = k
  · rw [hx, AList.lookup_insert]
    exact Shard.lookup_some he
  · rw [AList.lookup_insert_ne hx]
    exact h.items x

theorem setDeadline (h : Represents s c) {k : Str} {e : Entry} (he : s.data.lookup k = some e)
    (deadline : Int) :
    Represents (s.setDeadline deadline k e).shard (c.adjust k (e.value, some deadline)) := by
  refine ⟨?_,fun x => ?_,fun x d hd => ?_,h.addresses,h.fresh⟩
  · exact h.order.trans (List.map₂_keys ..).symm
  · rw [Cache.find_adjust, Shard.setDeadline, Shard.insert_lookup]
    by_cases hx : x = k
    · simp [hx, (h.lookup_present he).2, Entry.item]
    · simp [hx, h.items x]
  · by_cases hx : x = k
    · subst hx
      simp only [Shard.setDeadline, Finmap.lookup_insert, Option.some.injEq] at hd
      subst hd
      exact h.iters x e he
    · simp only [Shard.setDeadline, Finmap.lookup_insert_of_ne _ hx] at hd
      exact h.iters x d hd

theorem dropBack (h : Represents s c) {node : Node} (hn : s.lruOrder.getLast? = some node) :
    Represents (s.dropBack node) (c.remove node.key) := by
  have hm : node ∈ s.lruOrder := List.mem_of_mem_getLast? hn
  have hk : node.key ∈ c.entries := by
    rw [AList.mem_keys, ← h.order]
    exact List.mem_map_of_mem hm
  obtain ⟨e,he⟩ := Finmap.mem_iff.mp ((h.mem_iff node.key).mpr hk)
  have ha := (h.node_iff he hm).mpr rfl
  have hdrop : eraseNode e.lruIter s.lruOrder = s.lruOrder.dropLast := by
    have hsplit := List.dropLast_append_getLast? _ hn
    have hnd := h.addresses
    rw [← hsplit, List.map_append, List.nodup_append] at hnd
    conv_lhs => rw [← hsplit]
    rw [eraseNode, List.filter_append, List.filter_eq_self.mpr]
    · simp [ha]
    · intro n hn'
      simpa [ha] using hnd.2.2 _ (List.mem_map_of_mem hn') node.address (by simp)
  have hr := h.removeEntry he
  rwa [Shard.removeEntry, hdrop] at hr

theorem back (h : Represents s c) (hfull : c.capacity ≤ s.size) :
    ∃ node, s.lruOrder.getLast? = some node ∧ c.entries.keys.getLast? = some node.key ∧
      (s.dropBack node).size < c.capacity := by
  have hpos := c.positive
  have hsize := h.size
  cases hn : s.lruOrder.getLast? with
  | none =>
    have hk := h.order
    rw [List.getLast?_eq_none_iff.mp hn] at hk
    have hlen : c.size = 0 := (List.length_map ..).symm.trans (congrArg List.length hk.symm)
    omega
  | some node =>
    have hlast : c.entries.keys.getLast? = some node.key := by
      rw [← h.order, List.getLast?_map, hn]
      rfl
    have hrem := Cache.size_remove (AList.mem_keys.mpr (List.mem_of_mem_getLast? hlast))
    have hb : c.size ≤ c.capacity := c.bounded
    refine ⟨node,rfl,hlast,?_⟩
    rw [(h.dropBack hn).size]
    omega

theorem evictIfNeeded (h : Represents s c) :
    Represents (s.evictIfNeeded c.capacity).shard c.trim := by
  rcases Nat.lt_or_ge s.size c.capacity with hroom | hfull
  · rw [Shard.evictIfNeeded_room hroom, Cache.trim_room (h.size ▸ hroom)]
    exact h
  · obtain ⟨node,hn,hk,hroom⟩ := h.back hfull
    have hsize : c.size = c.capacity := le_antisymm c.bounded (h.size ▸ hfull)
    rw [Shard.evictIfNeeded_once hfull hn hroom, Cache.trim_full hsize hk]
    exact h.dropBack hn

theorem pushFront (h : Represents s c) {k : Str} (hk : k ∉ c.entries) (v : Str) (d : Option Int) :
    ∀ c' : Cache Str Item, c'.entries = c.entries.insert k (v, d) →
      Represents (s.pushFront k v d) c' := by
  intro c' hc
  have hnone : s.data.lookup k = none := Finmap.lookup_eq_none.mpr ((h.mem_iff k).not.mpr hk)
  refine ⟨?_,?_,?_,?_,?_⟩
  · rw [hc, AList.insert_of_notMem hk]
    exact congrArg (List.cons k) h.order
  · intro x
    rw [Cache.find, hc]
    exact h.insert_items k v d _ _ _ x
  · intro x e he
    by_cases hx : x = k
    · subst hx
      simp only [Shard.pushFront, Finmap.lookup_insert, Option.some.injEq] at he
      subst he
      exact List.mem_cons_self
    · simp only [Shard.pushFront, Finmap.lookup_insert_of_ne _ hx] at he
      exact List.mem_cons_of_mem _ (h.iters x e he)
  · refine List.nodup_cons.mpr ⟨?_,h.addresses⟩
    intro hm
    obtain ⟨n,hn,ha⟩ := List.mem_map.mp hm
    exact absurd (h.fresh n hn) (by simp [ha])
  · intro n hn
    rcases List.mem_cons.mp hn with rfl | hn
    · exact Nat.lt_succ_self _
    · exact Nat.lt_succ_of_lt (h.fresh n hn)

theorem insertOrUpdate (h : Represents s c) (k v : Str) (d : Option Int) :
    Represents (s.insertOrUpdate c.capacity k v d).shard (c.put k (v, d)) := by
  unfold Shard.insertOrUpdate
  cases hk : s.data.lookup k with
  | some e => exact h.update hk v d
  | none =>
    have habs : k ∉ c.entries := (h.mem_iff k).not.mp (Finmap.lookup_eq_none.mp hk)
    have htrim : k ∉ c.trim.entries := fun hm =>
      habs (((List.take_sublist ..).map Sigma.fst).subset hm)
    exact h.evictIfNeeded.pushFront htrim v d _ (Cache.put_absent _ habs)

theorem access {R : Type} (h : Represents s c) {now : Int} {k : Str} {absent : R}
    {hit : Entry → Outcome R} {hit' : Item → R × Cache Str Item}
    (hhit : ∀ e, s.data.lookup k = some e →
      (hit e).result = (hit' e.item).1 ∧ Represents (hit e).shard (hit' e.item).2) :
    (s.access now k absent hit).result = (Reference.visit now k absent hit' c).1 ∧
      Represents (s.access now k absent hit).shard (Reference.visit now k absent hit' c).2 := by
  unfold Shard.access Reference.visit
  cases hk : s.data.lookup k with
  | none =>
    rw [← h.items, Shard.lookup_none hk]
    exact ⟨rfl,h⟩
  | some e =>
    rw [(h.lookup_present hk).2]
    cases hx : itemExpired now e.item with
    | true => exact ⟨by simp [isExpired_item, hx, Shard.removeExpiredEntry],
        by simpa [isExpired_item, hx, Shard.removeExpiredEntry] using h.removeEntry hk⟩
    | false => simpa [isExpired_item, hx] using hhit e hk

theorem get (h : Represents s c) (now : Int) (k : Str) :
    (s.get now k).result = (Reference.get now k c).1 ∧
      Represents (s.get now k).shard (Reference.get now k c).2 :=
  h.access fun _ he => ⟨rfl,h.moveToFront he⟩

theorem del (h : Represents s c) (now : Int) (k : Str) :
    (s.del now k).result = (Reference.del now k c).1 ∧
      Represents (s.del now k).shard (Reference.del now k c).2 :=
  h.access fun _ he => ⟨rfl,h.removeEntry he⟩

theorem expire (h : Represents s c) (now later : Int) (k : Str) (seconds : Int) :
    (s.expire now later k seconds).result = (Reference.expire now k later seconds c).1 ∧
      Represents (s.expire now later k seconds).shard (Reference.expire now k later seconds c).2 :=
  h.access fun _ he => ⟨rfl,h.setDeadline he _⟩

theorem ttl (h : Represents s c) (now later : Int) (k : Str) :
    (s.ttl now later k).result = (Reference.ttl now k later c).1 ∧
      Represents (s.ttl now later k).shard (Reference.ttl now k later c).2 := by
  refine h.access fun e _ => ?_
  obtain ⟨v,d,a⟩ := e
  cases d with
  | none => exact ⟨rfl,h⟩
  | some d => exact ⟨rfl,h⟩

theorem sweepKey {o : Outcome Unit} (h : Represents o.shard c) (now : Int) (k : Str) :
    Represents (Shard.sweepEntry now o k).shard (Reference.sweepKey now k c) := by
  unfold Shard.sweepEntry Reference.sweepKey Reference.visit
  cases hk : o.shard.data.lookup k with
  | none =>
    rw [← h.items, Shard.lookup_none hk]
    exact h
  | some e =>
    rw [(h.lookup_present hk).2]
    cases hx : itemExpired now e.item with
    | true => simpa [isExpired_item, hx] using h.removeEntry hk
    | false => simpa [isExpired_item, hx] using h

theorem sweepKeys {o : Outcome Unit} (h : Represents o.shard c) (now : Int) (ks : List Str) :
    Represents (ks.foldl (Shard.sweepEntry now) o).shard
      (ks.foldl (fun c key => Reference.sweepKey now key c) c) := by
  induction ks generalizing o c with
  | nil => exact h
  | cons k ks ih => exact ih (h.sweepKey now k)

theorem sweepShard (h : Represents s c) (now : Int) (order : List Str) :
    Represents (s.sweepShard now order).shard (Reference.sweep now order c).2 :=
  sweepKeys (o := ⟨(), s, 0, 0⟩) h now _

end Represents

structure Simulates (hash : Str → Nat) (st : ShardedStorage) (ref : Reference) : Prop where
  shards : ∀ i, Represents (st.shards i) (ref i)
  capacity : ∀ i, st.maxKeysPerShard = (ref i).capacity
  home : ∀ i, ∀ k ∈ (ref i).entries, shardIndex hash k = i

namespace Reference

theorem locked_at {R : Type} (i : Fin numShards) (op : Cache Str Item → R × Cache Str Item)
    (ref : Reference) (j : Fin numShards) :
    (ref.locked i op).2 j = if j = i then (op (ref i)).2 else ref j := by
  simp only [locked, Function.update_apply]

structure Shrinks (c d : Cache Str Item) : Prop where
  capacity : d.capacity = c.capacity
  keys : ∀ x ∈ d.entries, x ∈ c.entries

variable {R : Type} {c : Cache Str Item} {now : Int} {k : Str}

theorem shrinks_visit {absent : R} {hit : Item → R × Cache Str Item}
    (h : ∀ item, c.find k = some item → Shrinks c (hit item).2) :
    Shrinks c (visit now k absent hit c).2 := by
  unfold visit
  split
  · exact ⟨rfl,fun _ => id⟩
  · rename_i item hf
    split
    · exact ⟨rfl,fun _ hx => (AList.mem_erase.mp hx).2⟩
    · exact h item hf

theorem shrinks_get (now : Int) (k : Str) (c : Cache Str Item) : Shrinks c (get now k c).2 := by
  refine shrinks_visit fun item hf => ⟨rfl,fun x hx => ?_⟩
  rcases Cache.mem_put hx with rfl | hx
  · exact AList.lookup_isSome.mp (Option.isSome_of_mem hf)
  · exact hx

theorem shrinks_sweep (now : Int) (order : List Str) (c : Cache Str Item) :
    Shrinks c (sweep now order c).2 := by
  unfold sweep
  induction order.take Shard.maxScanPerSweep generalizing c with
  | nil => exact ⟨rfl,fun _ => id⟩
  | cons k ks ih =>
    have hk : Shrinks c (sweepKey now k c) := shrinks_visit fun _ _ => ⟨rfl,fun _ => id⟩
    have hks := ih (sweepKey now k c)
    exact ⟨hks.capacity.trans hk.capacity,fun x hx => hk.keys x (hks.keys x hx)⟩

end Reference

namespace Simulates

variable {hash : Str → Nat} {st : ShardedStorage} {ref : Reference}

theorem locked {R : Type} (h : Simulates hash st ref) {i : Fin numShards}
    {op : Shard → Outcome R} {op' : Cache Str Item → R × Cache Str Item}
    (hop : (op (st.shards i)).result = (op' (ref i)).1 ∧
      Represents (op (st.shards i)).shard (op' (ref i)).2)
    (hcap : (op' (ref i)).2.capacity = (ref i).capacity)
    (hkeys : ∀ x ∈ (op' (ref i)).2.entries, x ∈ (ref i).entries ∨ shardIndex hash x = i) :
    (st.locked i op).1 = (ref.locked i op').1 ∧
      Simulates hash (st.locked i op).2 (ref.locked i op').2 := by
  refine ⟨hop.1,⟨fun j => ?_,fun j => ?_,fun j x hx => ?_⟩⟩
  · rw [ShardedStorage.locked_shards, Reference.locked_at]
    split
    · exact hop.2
    · exact h.shards j
  · rw [Reference.locked_at]
    split
    · exact (h.capacity i).trans hcap.symm
    · exact h.capacity j
  · rw [Reference.locked_at] at hx
    split at hx
    · rename_i hj
      rw [hj]
      exact (hkeys x hx).elim (h.home i x) id
    · exact h.home j x hx

theorem shrunk {R : Type} (h : Simulates hash st ref) {i : Fin numShards}
    {op : Shard → Outcome R} {op' : Cache Str Item → R × Cache Str Item}
    (hop : (op (st.shards i)).result = (op' (ref i)).1 ∧
      Represents (op (st.shards i)).shard (op' (ref i)).2)
    (hs : Reference.Shrinks (ref i) (op' (ref i)).2) :
    (st.locked i op).1 = (ref.locked i op').1 ∧
      Simulates hash (st.locked i op).2 (ref.locked i op').2 :=
  h.locked hop hs.capacity fun x hx => Or.inl (hs.keys x hx)

theorem insertOrUpdate (h : Simulates hash st ref) (k v : Str) (d : Option Int) :
    Simulates hash
      (st.onShard hash k (Shard.insertOrUpdate st.maxKeysPerShard k v d)).2
      (ref.locked (shardIndex hash k) (Reference.put k (v, d))).2 := by
  refine (h.locked ⟨rfl,?_⟩ rfl fun x hx => ?_).2
  · rw [h.capacity (shardIndex hash k)]
    exact (h.shards _).insertOrUpdate k v d
  · rcases Cache.mem_put hx with rfl | hx
    · exact Or.inr rfl
    · exact Or.inl hx

theorem size (h : Simulates hash st ref) : st.size = ref.size := by
  rw [ShardedStorage.size, Reference.size]
  exact congrArg List.sum (List.map_congr_left fun i _ => (h.shards i).size)

theorem call (h : Simulates hash st ref) (x : Call) :
    (st.call hash x).1 = (ref.call hash x).1 ∧
      Simulates hash (st.call hash x).2 (ref.call hash x).2 := by
  cases x with
  | set k v => exact ⟨rfl,h.insertOrUpdate k v none⟩
  | setWithTTL now k v seconds => exact ⟨rfl,h.insertOrUpdate k v _⟩
  | get now k =>
    have hr := h.shrunk ((h.shards (shardIndex hash k)).get now k) (Reference.shrinks_get now k _)
    exact ⟨congrArg Reply.value hr.1,hr.2⟩
  | del now k =>
    have hr := h.shrunk ((h.shards (shardIndex hash k)).del now k)
      (Reference.shrinks_visit fun _ _ => ⟨rfl,fun _ hx => (AList.mem_erase.mp hx).2⟩)
    exact ⟨congrArg Reply.flag hr.1,hr.2⟩
  | expire now later k seconds =>
    simp only [ShardedStorage.call, ShardedStorage.expire, Reference.call]
    split
    · exact ⟨rfl,h⟩
    · have hr := h.shrunk ((h.shards (shardIndex hash k)).expire now later k seconds)
        (Reference.shrinks_visit fun _ _ => ⟨rfl,fun _ hx => Cache.mem_adjust.mp hx⟩)
      exact ⟨congrArg Reply.flag hr.1,hr.2⟩
  | ttl now later k =>
    have hr := h.shrunk ((h.shards (shardIndex hash k)).ttl now later k)
      (Reference.shrinks_visit fun _ _ => ⟨rfl,fun _ => id⟩)
    exact ⟨congrArg Reply.seconds hr.1,hr.2⟩
  | size => exact ⟨congrArg Reply.count h.size,h⟩
  | sweepShard now i order =>
    have hr := h.shrunk ⟨rfl,(h.shards i).sweepShard now order⟩
      (Reference.shrinks_sweep now order _)
    exact ⟨rfl,hr.2⟩

theorem create (hash : Str → Nat) (maxKeys : Nat) :
    Simulates hash (.create maxKeys) (.create maxKeys) :=
  ⟨fun _ => Represents.empty _ _,fun _ => rfl,fun _ _ hx => absurd hx (AList.notMem_empty _)⟩

theorem calls (h : Simulates hash st ref) (cs : List Call) :
    (st.calls hash cs).1 = (ref.calls hash cs).1 ∧
      Simulates hash (st.calls hash cs).2 (ref.calls hash cs).2 := by
  obtain ⟨hq,hr⟩ := Transducer.lockstep (A := fun _ => True) (Q := Eq)
    (fun s t x _ hs => (show Simulates hash s t from hs).call x)
    (show ∀ x ∈ cs, True from fun _ _ => trivial) h
  exact ⟨List.forall₂_eq_eq_eq ▸ hq,hr⟩

end Simulates

theorem storage_refines_reference (hash : Str → Nat) (maxKeys : Nat) (cs : List Call) :
    ((ShardedStorage.create maxKeys).calls hash cs).1 =
        ((Reference.create maxKeys).calls hash cs).1 ∧
      Simulates hash ((ShardedStorage.create maxKeys).calls hash cs).2
        ((Reference.create maxKeys).calls hash cs).2 :=
  (Simulates.create hash maxKeys).calls cs

end CacheForge
