import CacheForge.Storage.Reference

namespace CacheForge

open Recency (Cache)

def Reply.KeptBy (r r' : Reply) : Prop := ∀ v, r = .value (some v) → r' = .value (some v)

namespace Reference

variable {c d : Cache Str Item}

theorem within_visit {R : Type} {now : Int} {k : Str} {absent : R}
    {hit hit' : Item → R × Cache Str Item} (h : c.Within d)
    (hboth : ∀ item, c.find k = some item → (hit item).2.Within (hit' item).2)
    (hright : ∀ item, k ∉ c.entries → d.find k = some item → c.Within (hit' item).2) :
    (visit now k absent hit c).2.Within (visit now k absent hit' d).2 := by
  unfold visit
  cases hc : c.find k with
  | some item =>
    rw [h.find hc]
    dsimp only
    split
    · exact h.remove
    · exact hboth item hc
  | none =>
    have habs := Cache.find_none.mp hc
    cases hd : d.find k with
    | none => exact h
    | some item =>
      dsimp only
      split
      · have hr := h.remove (k := k)
        rwa [Cache.remove_absent habs] at hr
      · exact hright item habs hd

theorem within_get (h : c.Within d) (now : Int) (k : Str) :
    (get now k c).2.Within (get now k d).2 :=
  within_visit h (fun item _ => h.put item) fun item hc hd =>
    h.promote item hc (AList.lookup_isSome.mp (Option.isSome_of_mem hd))

theorem within_del (h : c.Within d) (now : Int) (k : Str) :
    (del now k c).2.Within (del now k d).2 := by
  refine within_visit h (fun _ _ => h.remove) fun _ hc _ => ?_
  have hr := h.remove (k := k)
  rwa [Cache.remove_absent hc] at hr

theorem within_expire (h : c.Within d) (now later : Int) (k : Str) (seconds : Int) :
    (expire now k later seconds c).2.Within (expire now k later seconds d).2 := by
  refine within_visit h (fun _ _ => h.adjust _) fun item hc _ => ?_
  have ha := h.adjust (k := k) (item.1, some (deadlineAfter later seconds))
  rwa [Cache.adjust_absent _ hc] at ha

theorem within_ttl (h : c.Within d) (now later : Int) (k : Str) :
    (ttl now k later c).2.Within (ttl now k later d).2 :=
  within_visit h (fun _ _ => h) fun _ _ _ => h

theorem get_kept (h : c.Within d) (now : Int) (k v : Str) (hv : (get now k c).1 = some v) :
    (get now k d).1 = some v := by
  unfold get visit at hv ⊢
  cases hc : c.find k with
  | none => simp [hc] at hv
  | some item =>
    rw [hc] at hv
    rw [h.find hc]
    dsimp only at hv ⊢
    split at hv
    · cases hv
    · rename_i hx
      rwa [if_neg hx]

theorem within_locked {R : Type} {ref ref' : Reference} (h : ∀ i, (ref i).Within (ref' i))
    {i : Fin numShards} {op : Cache Str Item → R × Cache Str Item}
    (hop : (op (ref i)).2.Within (op (ref' i)).2) (j : Fin numShards) :
    ((ref.locked i op).2 j).Within ((ref'.locked i op).2 j) := by
  rw [locked_at, locked_at]
  split
  · exact hop
  · exact h j

theorem within_call (hash : Str → Nat) {ref ref' : Reference}
    (h : ∀ i, (ref i).Within (ref' i)) {x : Call} (hx : x.isSweep = false) :
    (ref.call hash x).1.KeptBy (ref'.call hash x).1 ∧
      ∀ i, ((ref.call hash x).2 i).Within ((ref'.call hash x).2 i) := by
  cases x with
  | set k v => exact ⟨fun _ hv => hv,within_locked h ((h _).put _)⟩
  | setWithTTL now k v seconds => exact ⟨fun _ hv => hv,within_locked h ((h _).put _)⟩
  | get now k =>
    refine ⟨fun v hv => ?_,within_locked h (within_get (h _) now k)⟩
    exact congrArg Reply.value (get_kept (h _) now k v (Reply.value.inj hv))
  | del now k => exact ⟨fun _ hv => (by cases hv),within_locked h (within_del (h _) now k)⟩
  | expire now later k seconds =>
    simp only [call]
    split
    · exact ⟨fun _ hv => hv,h⟩
    · exact ⟨fun _ hv => (by cases hv),within_locked h (within_expire (h _) now later k seconds)⟩
  | ttl now later k =>
    exact ⟨fun _ hv => (by cases hv),within_locked h (within_ttl (h _) now later k)⟩
  | size => exact ⟨fun _ hv => (by cases hv),h⟩
  | sweepShard now i order => cases hx

theorem within_create {m m' : Nat} (h : m ≤ m') (i : Fin numShards) :
    (create m i).Within (create m' i) := by
  have hcap : max 1 (m / numShards) ≤ max 1 (m' / numShards) :=
    max_le_max le_rfl (Nat.div_le_div_right h)
  exact ⟨hcap,List.Sublist.refl _,Nat.add_le_add_left hcap _⟩

end Reference

theorem larger_cache_keeps_hits (hash : Str → Nat) (m m' : Nat) (hm : m ≤ m') (cs : List Call)
    (hcs : ∀ x ∈ cs, x.isSweep = false) :
    List.Forall₂ Reply.KeptBy ((ShardedStorage.create m).calls hash cs).1
      ((ShardedStorage.create m').calls hash cs).1 := by
  rw [((Simulates.create hash m).calls cs).1, ((Simulates.create hash m').calls cs).1]
  exact (Transducer.lockstep (R := fun ref ref' => ∀ i, (ref i).Within (ref' i))
    (fun _ _ x hx h => Reference.within_call hash h hx) hcs (Reference.within_create hm)).1

def evictingCalls : List Call :=
  [.set ['a'] ['1'], .set ['b'] ['2'], .get 0 ['a'], .set ['c'] ['3'], .get 0 ['c'], .get 0 ['a']]

theorem larger_cache_keeps_evicting_calls :
    ((ShardedStorage.create 16).calls (fun _ => 0) evictingCalls).1 =
        [.done, .done, .value none, .done, .value (some ['3']), .value none] ∧
      ((ShardedStorage.create 32).calls (fun _ => 0) evictingCalls).1 =
        [.done, .done, .value (some ['1']), .done, .value (some ['3']), .value (some ['1'])] ∧
      List.Forall₂ Reply.KeptBy ((ShardedStorage.create 16).calls (fun _ => 0) evictingCalls).1
        ((ShardedStorage.create 32).calls (fun _ => 0) evictingCalls).1 :=
  ⟨by decide +kernel,by decide +kernel,
    larger_cache_keeps_hits (fun _ => 0) 16 32 (by decide) evictingCalls (by decide)⟩

end CacheForge
