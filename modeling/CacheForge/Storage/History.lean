import CacheForge.Storage.WellFormed

namespace CacheForge

namespace Shard

def evictees (cap : Nat) (s : Shard) : List Str :=
  if s.size < cap then []
  else match _h : s.lruOrder.getLast? with
    | none => []
    | some node => node.key :: evictees cap (s.dropBack node)
termination_by s.lruOrder.length
decreasing_by
  have hne : s.lruOrder ≠ [] := by
    intro hn
    simp [hn] at _h
  have hpos := List.length_pos_iff.mpr hne
  simp only [dropBack, List.length_dropLast]
  omega

def insertEvictees (cap : Nat) (key : Str) (s : Shard) : List Str :=
  match s.data.lookup key with
  | some _ => []
  | none => s.evictees cap

theorem dropBack_lookup (s : Shard) (node : Node) (x : Str) :
    (s.dropBack node).lookup x = if x = node.key then none else s.lookup x := by
  split
  · rename_i hx
    simp [dropBack, lookup_mk, hx]
  · rename_i hx
    simp [dropBack, Finmap.lookup_erase_ne hx, lookup]

section

variable {cap : Nat} {s : Shard} {node : Node}

theorem evictees_none (h : ¬s.size < cap) (hn : s.lruOrder.getLast? = none) :
    s.evictees cap = [] := by
  rw [evictees, if_neg h]
  split
  · rfl
  · rename_i hs
    cases hn.symm.trans hs

theorem evictees_some (h : ¬s.size < cap) (hn : s.lruOrder.getLast? = some node) :
    s.evictees cap = node.key :: (s.dropBack node).evictees cap := by
  rw [evictees, if_neg h]
  split
  · rename_i hs
    cases hn.symm.trans hs
  · rename_i hs
    cases hn.symm.trans hs
    rfl

theorem evictIfNeeded_none (h : ¬s.size < cap) (hn : s.lruOrder.getLast? = none) :
    (s.evictIfNeeded cap).shard = s := by
  rw [evictIfNeeded, if_neg h]
  split
  · rfl
  · rename_i hs
    cases hn.symm.trans hs

theorem evictIfNeeded_some (h : ¬s.size < cap) (hn : s.lruOrder.getLast? = some node) :
    (s.evictIfNeeded cap).shard = ((s.dropBack node).evictIfNeeded cap).shard := by
  rw [evictIfNeeded, if_neg h]
  split
  · rename_i hs
    cases hn.symm.trans hs
  · rename_i hs
    cases hn.symm.trans hs
    rfl

end

theorem evictIfNeeded_lookup (cap : Nat) (s : Shard) (x : Str) :
    (s.evictIfNeeded cap).shard.lookup x = if x ∈ s.evictees cap then none else s.lookup x := by
  induction s using evictees.induct cap with
  | case1 s h => simp [evictIfNeeded_room h, evictees, h]
  | case2 s h hn => simp [evictIfNeeded_none h hn, evictees_none h hn]
  | case3 s h node hn ih =>
    rw [evictIfNeeded_some h hn, evictees_some h hn, ih, dropBack_lookup]
    by_cases hx : x = node.key <;> simp [hx]

theorem evictees_mem {cap : Nat} {s : Shard} {x : Str} (h : x ∈ s.evictees cap) :
    x ∈ s.lruOrder.map Node.key := by
  induction s using evictees.induct cap with
  | case1 s hs => simp [evictees, hs] at h
  | case2 s hs hn => simp [evictees_none hs hn] at h
  | case3 s hs node hn ih =>
    rw [evictees_some hs hn] at h
    rcases List.mem_cons.mp h with rfl | h
    · exact List.mem_map_of_mem (List.mem_of_mem_getLast? hn)
    · exact ((List.dropLast_sublist _).map _).subset (ih h)

theorem insertOrUpdate_lookup (cap : Nat) (k v : Str) (d : Option Int) (s : Shard) {x : Str}
    (hx : x ≠ k) :
    (s.insertOrUpdate cap k v d).shard.lookup x =
      if x ∈ s.insertEvictees cap k then none else s.lookup x := by
  unfold insertOrUpdate insertEvictees
  cases h : s.data.lookup k with
  | some e => simp [insert_lookup, hx]
  | none => simp [pushFront, insert_lookup, hx, evictIfNeeded_lookup]

theorem insertEvictees_victim {s : Shard} {c : Recency.Cache Str Item} (h : Represents s c)
    (k : Str) : s.insertEvictees c.capacity k = (c.victim k).toList := by
  have hmem := h.mem_iff k
  unfold insertEvictees
  cases hk : s.data.lookup k with
  | some e =>
    have hin : k ∈ c.entries := (h.lookup_present hk).1
    rw [Recency.Cache.victim_none.mpr (.inl hin)]
    rfl
  | none =>
    have hout : k ∉ c.entries := hmem.not.mp (Finmap.lookup_eq_none.mp hk)
    rcases Nat.lt_or_ge s.size c.capacity with hroom | hfull
    · rw [Recency.Cache.victim_none.mpr (.inr (h.size ▸ hroom)), evictees, if_pos hroom]
      rfl
    · obtain ⟨node,hn,hlast,hroom⟩ := h.back hfull
      have hnone : ¬(k ∈ c.entries ∨ c.size < c.capacity) :=
        not_or.mpr ⟨hout,not_lt.mpr (h.size ▸ hfull)⟩
      rw [evictees_some (not_lt.mpr hfull) hn, evictees, if_pos hroom, Recency.Cache.victim,
        if_neg hnone, hlast]
      rfl

end Shard

structure Exchange where
  call : Call
  reply : Reply
  evicted : List Str
  deriving DecidableEq, Repr

namespace ShardedStorage

variable (hash : Str → Nat)

def evicts (st : ShardedStorage) : Call → List Str
  | .set key _ => (st.shards (shardIndex hash key)).insertEvictees st.maxKeysPerShard key
  | .setWithTTL _ key _ _ => (st.shards (shardIndex hash key)).insertEvictees st.maxKeysPerShard key
  | _ => []

def exchange (st : ShardedStorage) (x : Call) : Exchange × ShardedStorage :=
  (⟨x, (st.call hash x).1, st.evicts hash x⟩, (st.call hash x).2)

end ShardedStorage

def history (hash : Str → Nat) (maxKeys : Nat) (cs : List Call) : List Exchange :=
  (Transducer.run (ShardedStorage.exchange hash) cs (.create maxKeys)).1

namespace Exchange

variable (k : Str)

def writes (e : Exchange) : Option Item :=
  match e.call with
  | .set key value => if key = k then some (value, none) else none
  | .setWithTTL now key value seconds =>
      if key = k then
        some (value, if seconds < 0 then none else some (now + seconds * 1000000000))
      else none
  | _ => none

def deletes : Exchange → Bool
  | ⟨.del _ key, .flag true, _⟩ => key = k
  | _ => false

def extension : Exchange → Option Int
  | ⟨.expire _ later key seconds, .flag true, _⟩ =>
      if key = k then some (later + seconds * 1000000000) else none
  | _ => none

def lastSet : List Exchange → Option (Item × List Exchange)
  | [] => none
  | e :: es => (lastSet es).or ((e.writes k).map fun w => (w, es))

def deadline (d : Option Int) (after : List Exchange) : Option Int :=
  (after.filterMap (extension k)).getLast?.or d

def standing (h : List Exchange) : Option Item :=
  match lastSet k h with
  | none => none
  | some (w, after) =>
      if after.any (deletes k) || after.any (fun e => k ∈ e.evicted) then none
      else some (w.1, deadline k w.2 after)

variable {k}

theorem lastSet_snoc (h : List Exchange) (e : Exchange) :
    lastSet k (h ++ [e]) =
      match e.writes k with
      | some w => some (w, [])
      | none => (lastSet k h).map fun x => (x.1, x.2 ++ [e]) := by
  induction h with
  | nil => cases hw : e.writes k <;> simp [lastSet, hw]
  | cons d h ih =>
    rw [List.cons_append, lastSet, ih]
    cases hw : e.writes k with
    | some w => simp
    | none =>
      cases hl : lastSet k h <;> cases hd : d.writes k <;> simp [lastSet, hl, hd]

theorem standing_write {e : Exchange} {w : Item} (hw : e.writes k = some w) (h : List Exchange) :
    standing k (h ++ [e]) = some w := by
  simp [standing, lastSet_snoc, hw, deadline]

theorem deadline_snoc (d : Option Int) (after : List Exchange) (e : Exchange) :
    deadline k d (after ++ [e]) = (e.extension k).or (deadline k d after) := by
  cases he : e.extension k <;> simp [deadline, he]

theorem standing_snoc {e : Exchange} (hw : e.writes k = none) (h : List Exchange) :
    standing k (h ++ [e]) =
      if e.deletes k || k ∈ e.evicted then none
      else (standing k h).map fun i => (i.1, (e.extension k).or i.2) := by
  simp only [standing, lastSet_snoc, hw]
  cases lastSet k h with
  | none => simp
  | some x =>
    simp only [Option.map_some, List.any_append, List.any_cons, List.any_nil, Bool.or_false,
      deadline_snoc]
    cases x.2.any (deletes k) <;> cases x.2.any (fun e => decide (k ∈ e.evicted)) <;>
      cases e.deletes k <;> cases decide (k ∈ e.evicted) <;> simp

theorem deletes_del (now : Int) (key : Str) (b : Bool) (ev : List Str) :
    deletes k ⟨.del now key, .flag b, ev⟩ = (b && decide (key = k)) := by cases b <;> rfl

theorem extension_expire (now later : Int) (key : Str) (seconds : Int) (b : Bool) (ev : List Str) :
    extension k ⟨.expire now later key seconds, .flag b, ev⟩ =
      if b = true ∧ key = k then some (later + seconds * 1000000000) else none := by
  cases b with
  | false => rfl
  | true => simp [extension]

structure Silent (k : Str) (e : Exchange) : Prop where
  writes : e.writes k = none
  deletes : e.deletes k = false
  evicted : k ∉ e.evicted
  extension : e.extension k = none

theorem standing_silent {e : Exchange} (he : e.Silent k) (h : List Exchange) :
    standing k (h ++ [e]) = standing k h := by
  rw [standing_snoc he.writes, he.deletes, he.extension]
  simp [he.evicted]

variable (k) in
theorem standing_congr {a b : List Exchange} (h : standing k a = standing k b) (e : Exchange) :
    standing k (a ++ [e]) = standing k (b ++ [e]) := by
  cases hw : e.writes k with
  | some w => rw [standing_write hw, standing_write hw]
  | none => rw [standing_snoc hw, standing_snoc hw, h]

def keyed (e : Exchange) : Bool :=
  match e.call with
  | .size => false
  | .sweepShard _ _ _ => false
  | _ => true

theorem silent_unkeyed {e : Exchange} (he : e.keyed = false) (hv : e.evicted = []) :
    e.Silent k := by
  obtain ⟨x,r,ev⟩ := e
  subst hv
  cases x with
  | size | sweepShard => exact ⟨rfl,rfl,List.not_mem_nil,rfl⟩
  | _ => cases he

variable (k) in
theorem standing_keyed {h : List Exchange} (hv : ∀ e ∈ h, e.keyed = false → e.evicted = []) :
    standing k (h.filter keyed) = standing k h := by
  induction h using List.reverseRecOn with
  | nil => rfl
  | append_singleton h e ih =>
    have ih := ih fun e he => hv e (by simp [he])
    rw [List.filter_append]
    cases he : e.keyed with
    | true => simpa [he] using standing_congr k ih e
    | false => simpa [he, standing_silent (silent_unkeyed he (hv e (by simp) he))] using ih

end Exchange

end CacheForge
