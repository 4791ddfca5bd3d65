import Mathlib.Data.List.AList
import Mathlib.Tactic

namespace Recency

@[ext] structure Cache (K V : Type) where
  capacity : Nat
  entries : AList (fun _ : K => V)
  positive : 0 < capacity
  bounded : entries.entries.length ≤ capacity

namespace Cache

variable {K V : Type}

def empty (capacity : Nat) (positive : 0 < capacity) : Cache K V :=
  ⟨capacity, ∅, positive, by simp⟩

def size (c : Cache K V) : Nat := c.entries.entries.length

def trim (c : Cache K V) : Cache K V where
  capacity := c.capacity
  entries := ⟨c.entries.entries.take (c.capacity - 1),
    c.entries.nodupKeys.sublist (List.take_sublist ..)⟩
  positive := c.positive
  bounded := (List.length_take_le ..).trans (Nat.sub_le ..)

theorem trim_room {c : Cache K V} (h : c.size < c.capacity) : c.trim = c := by
  refine Cache.ext rfl (AList.ext ?_)
  exact List.take_of_length_le (Nat.le_sub_one_of_lt h)

structure Within (c d : Cache K V) : Prop where
  capacity : c.capacity ≤ d.capacity
  entries : c.entries.entries.Sublist d.entries.entries
  surplus : d.size + c.capacity ≤ c.size + d.capacity

theorem Within.mem {c d : Cache K V} {k : K} (h : c.Within d) (hk : k ∈ c.entries) :
    k ∈ d.entries := (h.entries.map Sigma.fst).subset hk

theorem Within.trim_trim {c d : Cache K V} (h : c.Within d) :
    c.trim.entries.entries.Sublist d.trim.entries.entries := by
  have hs := h.surplus
  have hc := c.bounded
  have hd := d.bounded
  rcases Nat.lt_or_ge c.size c.capacity with hroom | hfull
  · rw [trim_room hroom, trim_room (c := d) (by omega)]
    exact h.entries
  · rcases Nat.lt_or_ge d.size d.capacity with hroom' | hfull'
    · rw [trim_room (c := d) hroom']
      exact (List.take_sublist ..).trans h.entries
    · have hc' : c.entries.entries.length = c.capacity := le_antisymm hc hfull
      have hd' : d.entries.entries.length = d.capacity := le_antisymm hd hfull'
      simp only [trim, ← hc', ← hd', ← List.dropLast_eq_take]
      simpa using h.entries.reverse.tail.reverse

def Behind (T : Finset K) (k : K) (c : Cache K V) : Prop :=
  ∃ pre post, c.entries.keys = pre ++ k :: post ∧ ∀ x ∈ pre, x ∈ T

theorem Behind.mem {c : Cache K V} {k : K} {T : Finset K} (h : c.Behind T k) : k ∈ c.entries := by
  obtain ⟨pre,post,hk,-⟩ := h
  rw [AList.mem_keys, hk]
  simp

theorem Behind.mono {c : Cache K V} {k : K} {T T' : Finset K} (h : c.Behind T k) (hT : T ⊆ T') :
    c.Behind T' k := by
  obtain ⟨pre,post,hk,hpre⟩ := h
  exact ⟨pre,post,hk,fun x hx => hT (hpre x hx)⟩

variable [DecidableEq K]

def find (c : Cache K V) (k : K) : Option V := c.entries.lookup k

def remove (k : K) (c : Cache K V) : Cache K V where
  capacity := c.capacity
  entries := c.entries.erase k
  positive := c.positive
  bounded := (List.kerase_sublist k _).length_le.trans c.bounded

def adjust (k : K) (v : V) (c : Cache K V) : Cache K V where
  capacity := c.capacity
  entries := ⟨c.entries.entries.map (.map id fun x w => if x = k then v else w),
    c.entries.nodupKeys.map₂ _ _⟩
  positive := c.positive
  bounded := by simpa using c.bounded

def others (k : K) (c : Cache K V) : List (Sigma fun _ : K => V) :=
  if k ∈ c.entries then c.entries.entries.kerase k else c.entries.entries.take (c.capacity - 1)

theorem others_sublist (k : K) (c : Cache K V) : (c.others k).Sublist c.entries.entries := by
  unfold others
  split
  · exact List.kerase_sublist ..
  · exact List.take_sublist ..

theorem others_fresh (k : K) (c : Cache K V) : k ∉ (c.others k).keys := by
  unfold others
  split
  · exact List.notMem_keys_kerase k c.entries.nodupKeys
  · rename_i h
    exact fun hk => h (((List.take_sublist ..).map Sigma.fst).subset hk)

theorem others_length (k : K) (c : Cache K V) : (c.others k).length + 1 ≤ c.capacity := by
  have hb := c.bounded
  have hp := c.positive
  unfold others
  split
  · rename_i h
    obtain ⟨v,a,b,-,he,hk⟩ := List.exists_of_kerase (AList.mem_keys.mp h)
    rw [hk]
    rw [he] at hb
    simpa [Nat.add_assoc] using hb
  · rw [List.length_take]
    omega

def put (k : K) (v : V) (c : Cache K V) : Cache K V where
  capacity := c.capacity
  entries := ⟨⟨k, v⟩ :: c.others k,
    List.nodupKeys_cons.mpr ⟨c.others_fresh k,c.entries.nodupKeys.sublist (c.others_sublist k)⟩⟩
  positive := c.positive
  bounded := c.others_length k

theorem find_none {c : Cache K V} {k : K} : c.find k = none ↔ k ∉ c.entries := AList.lookup_eq_none

theorem keys_remove (k : K) (c : Cache K V) :
    (c.remove k).entries.keys = c.entries.keys.filter (fun x => x ≠ k) := by
  have hk : (c.remove k).entries.keys = c.entries.keys.erase k := AList.keys_erase k c.entries
  rw [hk, List.Nodup.erase_eq_filter c.entries.keys_nodup]
  refine List.filter_congr fun x _ => ?_
  rw [Bool.eq_iff_iff]
  simp

theorem put_present {c : Cache K V} {k : K} (v : V) (h : k ∈ c.entries) :
    (c.put k v).entries = c.entries.insert k v := by
  refine AList.ext ?_
  rw [AList.entries_insert]
  simp [put, others, h]

theorem put_absent {c : Cache K V} {k : K} (v : V) (h : k ∉ c.entries) :
    (c.put k v).entries = c.trim.entries.insert k v := by
  have ht : k ∉ c.trim.entries := fun hk => h (((List.take_sublist ..).map Sigma.fst).subset hk)
  refine AList.ext ?_
  rw [AList.entries_insert_of_notMem ht]
  simp [put, others, h, trim]

theorem trim_full {c : Cache K V} {k : K} (h : c.size = c.capacity)
    (hk : c.entries.keys.getLast? = some k) : c.trim = c.remove k := by
  obtain ⟨v,ds,hl⟩ : ∃ v ds, c.entries.entries = ds ++ [⟨k, v⟩] := by
    rw [AList.keys, List.keys, List.getLast?_map, Option.map_eq_some_iff] at hk
    obtain ⟨⟨k',v⟩,hl,rfl⟩ := hk
    exact ⟨v,_,(List.dropLast_append_getLast? _ hl).symm⟩
  have hn := c.entries.nodupKeys
  rw [hl, List.NodupKeys, List.keys_append, List.nodup_append] at hn
  have hd : k ∉ ds.keys := fun hm => hn.2.2 k hm k (by simp) rfl
  refine Cache.ext rfl (AList.ext ?_)
  have hr : (c.remove k).entries.entries = c.entries.entries.kerase k := rfl
  rw [size, hl, List.length_append, List.length_singleton] at h
  rw [hr, hl, List.kerase_append_right hd]
  simp [trim, hl, ← h]

theorem mem_put {c : Cache K V} {k x : K} {v : V} (h : x ∈ (c.put k v).entries) :
    x = k ∨ x ∈ c.entries := by
  have h' : x ∈ k :: (c.others k).keys := h
  rcases List.mem_cons.mp h' with h | h
  · exact Or.inl h
  · exact Or.inr (((c.others_sublist k).map Sigma.fst).subset h)

theorem mem_adjust {c : Cache K V} {k x : K} {v : V} :
    x ∈ (c.adjust k v).entries ↔ x ∈ c.entries := by
  rw [AList.mem_keys, AList.mem_keys, AList.keys, AList.keys, adjust, List.map₂_keys]

theorem find_adjust (c : Cache K V) (k x : K) (v : V) :
    (c.adjust k v).find x = (c.find x).map (fun w => if x = k then v else w) :=
  List.dlookup_map₂ x

variable {c d : Cache K V} {k : K}

theorem remove_absent (h : k ∉ c.entries) : c.remove k = c :=
  Cache.ext rfl (AList.ext (List.kerase_of_notMem_keys h))

theorem adjust_absent (v : V) (h : k ∉ c.entries) : c.adjust k v = c := by
  refine Cache.ext rfl (AList.ext ((List.map_congr_left fun x hx => ?_).trans (List.map_id _)))
  obtain ⟨x,w⟩ := x
  have hne : x ≠ k := fun he => h (he ▸ List.mem_keys_of_mem hx)
  simp [Sigma.map, hne]

theorem size_remove (h : k ∈ c.entries) : (c.remove k).size + 1 = c.size := by
  obtain ⟨v,a,b,-,he,hk⟩ := List.exists_of_kerase (AList.mem_keys.mp h)
  have hr : (c.remove k).entries.entries = a ++ b := hk
  rw [size, size, hr, he]
  simp [Nat.add_assoc]

theorem size_put_present (v : V) (h : k ∈ c.entries) : (c.put k v).size = c.size := by
  rw [← size_remove h, size, put_present v h, AList.entries_insert]
  rfl

theorem size_put_absent (v : V) (h : k ∉ c.entries) :
    (c.put k v).size = min (c.capacity - 1) c.size + 1 := by
  simp [size, put, others, h]

namespace Within

theorem find (h : c.Within d) {v : V} (hf : c.find k = some v) : d.find k = some v :=
  List.sublist_dlookup d.entries.nodupKeys h.entries hf

theorem remove (h : c.Within d) : (c.remove k).Within (d.remove k) := by
  refine ⟨h.capacity,h.entries.eraseP,?_⟩
  have hs := h.surplus
  by_cases hk : k ∈ c.entries
  · have hc := size_remove hk
    have hd := size_remove (h.mem hk)
    change (d.remove k).size + c.capacity ≤ (c.remove k).size + d.capacity
    omega
  · have hd : (d.remove k).size ≤ d.size := (List.kerase_sublist ..).length_le
    rw [remove_absent hk]
    exact (Nat.add_le_add_right hd _).trans hs

theorem adjust (h : c.Within d) (v : V) : (c.adjust k v).Within (d.adjust k v) :=
  ⟨h.capacity,h.entries.map _,by simpa [size, Cache.adjust] using h.surplus⟩

theorem promote (h : c.Within d) (v : V) (hc : k ∉ c.entries) (hd : k ∈ d.entries) :
    c.Within (d.put k v) := by
  refine ⟨h.capacity,?_,?_⟩
  · rw [put_present v hd, AList.entries_insert]
    have hr : (c.remove k).entries.entries.Sublist (d.remove k).entries.entries := h.remove.entries
    rw [remove_absent hc] at hr
    exact hr.cons _
  · rw [size_put_present v hd]
    exact h.surplus

theorem others (h : c.Within d) (k : K) : (c.others k).Sublist (d.others k) := by
  by_cases hc : k ∈ c.entries
  · simp only [Cache.others, hc, h.mem hc, if_true]
    exact h.entries.eraseP
  · by_cases hd : k ∈ d.entries
    · have hr : (c.remove k).entries.entries.Sublist (d.entries.entries.kerase k) :=
        h.entries.eraseP
      rw [remove_absent hc] at hr
      simpa only [Cache.others, hc, hd, if_true, if_false] using (List.take_sublist ..).trans hr
    · simp only [Cache.others, hc, hd, if_false]
      exact h.trim_trim

theorem put (h : c.Within d) (v : V) : (c.put k v).Within (d.put k v) := by
  refine ⟨h.capacity,(h.others k).cons_cons _,?_⟩
  have hs := h.surplus
  have hcap := h.capacity
  have hpos := c.positive
  have hcb : c.size ≤ c.capacity := c.bounded
  change (d.put k v).size + c.capacity ≤ (c.put k v).size + d.capacity
  by_cases hc : k ∈ c.entries
  · rw [size_put_present v hc, size_put_present v (h.mem hc)]
    exact hs
  · rw [size_put_absent v hc]
    by_cases hd : k ∈ d.entries
    · rw [size_put_present v hd]
      omega
    · rw [size_put_absent v hd]
      omega

end Within

variable {y : K} {T : Finset K}

theorem keys_put (y : K) (v : V) (c : Cache K V) :
    (c.put y v).entries.keys = y :: (c.others y).keys := rfl

theorem find_put_self (c : Cache K V) (k : K) (v : V) : (c.put k v).find k = some v :=
  List.dlookup_cons_eq ..

theorem find_remove_ne (hy : k ≠ y) : (c.remove y).find k = c.find k := AList.lookup_erase_ne hy

theorem find_put_ne {v : V} (hy : k ≠ y) (h : k ∈ (c.put y v).entries) :
    (c.put y v).find k = c.find k := by
  have hk : k ∈ (c.others y).keys := (List.mem_cons.mp h).resolve_left hy
  have hne : (c.put y v).find k = (c.others y).dlookup k :=
    List.dlookup_cons_ne (c.others y) (⟨y, v⟩ : Sigma fun _ : K => V) hy
  obtain ⟨w,hw⟩ := Option.isSome_iff_exists.mp (List.dlookup_isSome.mpr hk)
  rw [hne, hw]
  exact (List.sublist_dlookup c.entries.nodupKeys (c.others_sublist y) hw).symm

theorem lookup_insert (l : AList (fun _ : K => V)) (k x : K) (v : V) :
    (l.insert k v).lookup x = if x = k then some v else l.lookup x := by
  split
  · rename_i hx
    rw [hx, AList.lookup_insert]
  · rename_i hx
    exact AList.lookup_insert_ne hx

theorem put_room (h : c.size < c.capacity) (k : K) (v : V) :
    (c.put k v).size ≤ c.size + 1 ∧
      ∀ x, (c.put k v).find x = if x = k then some v else c.find x := by
  by_cases hk : k ∈ c.entries
  · refine ⟨(size_put_present v hk).trans_le (Nat.le_succ _),fun x => ?_⟩
    rw [find, put_present v hk]
    exact lookup_insert c.entries k x v
  · refine ⟨(size_put_absent v hk).trans_le (Nat.add_le_add_right (min_le_right ..) 1),fun x => ?_⟩
    rw [find, put_absent v hk, trim_room h]
    exact lookup_insert c.entries k x v

def victim (k : K) (c : Cache K V) : Option K :=
  if k ∈ c.entries ∨ c.size < c.capacity then none else c.entries.keys.getLast?

theorem victim_none : c.victim k = none ↔ k ∈ c.entries ∨ c.size < c.capacity := by
  unfold victim
  split
  · rename_i h
    simpa using h
  · rename_i h
    have hpos := c.positive
    have hfull : c.size = c.entries.keys.length := (List.length_map ..).symm
    rw [List.getLast?_eq_none_iff, ← List.length_eq_zero_iff]
    refine iff_of_false ?_ h
    omega

theorem victim_some {e : K} (h : c.victim k = some e) :
    k ∉ c.entries ∧ e ∈ c.entries ∧ c.trim = c.remove e := by
  have hne : ¬(k ∈ c.entries ∨ c.size < c.capacity) := by
    rw [← victim_none, h]
    exact Option.some_ne_none e
  rw [victim, if_neg hne] at h
  obtain ⟨hk,hfull⟩ := not_or.mp hne
  exact ⟨hk,List.mem_of_mem_getLast? h,trim_full (le_antisymm c.bounded (not_lt.mp hfull)) h⟩

theorem find_remove (c : Cache K V) (k x : K) :
    (c.remove k).find x = if x = k then none else c.find x := by
  split
  · rename_i hx
    rw [hx]
    exact AList.lookup_erase k c.entries
  · rename_i hx
    exact find_remove_ne hx

theorem find_put (c : Cache K V) (k x : K) (v : V) :
    (c.put k v).find x =
      if x = k then some v else if c.victim k = some x then none else c.find x := by
  cases hv : c.victim k with
  | none =>
    rcases victim_none.mp hv with hk | hroom
    · rw [find, put_present v hk, lookup_insert]
      simp [find]
    · simpa using (put_room hroom k v).2 x
  | some e =>
    obtain ⟨hk,-,htrim⟩ := victim_some hv
    have hx : (c.remove e).entries.lookup x = if some e = some x then none else c.find x := by
      rw [← find, find_remove]
      simp [eq_comm]
    rw [find, put_absent v hk, htrim, lookup_insert, hx]

structure SameItems (c d : Cache K V) : Prop where
  capacity : d.capacity = c.capacity
  items : ∀ k, d.find k = c.find k

namespace SameItems

theorem mem (h : c.SameItems d) (k : K) : k ∈ d.entries ↔ k ∈ c.entries := by
  rw [← AList.lookup_isSome, ← AList.lookup_isSome]
  exact iff_of_eq (congrArg (fun x : Option V => x.isSome = true) (h.items k))

theorem size (h : c.SameItems d) : d.size = c.size := by
  have hkeys : d.entries.keys.Perm c.entries.keys :=
    (List.perm_ext_iff_of_nodup d.entries.keys_nodup c.entries.keys_nodup).mpr h.mem
  have hlen (c : Cache K V) : c.size = c.entries.keys.length := (List.length_map ..).symm
  rw [hlen, hlen, hkeys.length_eq]

theorem remove (h : c.SameItems d) (k : K) : (c.remove k).SameItems (d.remove k) :=
  ⟨h.capacity,fun x => by rw [find_remove, find_remove, h.items]⟩

theorem promote (h : c.SameItems d) {v : V} (hf : c.find k = some v) :
    (c.put k v).SameItems d := by
  have hk : k ∈ c.entries := AList.lookup_isSome.mp (Option.isSome_of_mem hf)
  refine ⟨h.capacity,fun x => ?_⟩
  rw [find_put, victim_none.mpr (.inl hk), h.items]
  split
  · rename_i hx
    rw [hx, hf]
  · rfl

theorem put (h : c.SameItems d) (v : V) (hv : d.victim k = c.victim k) :
    (c.put k v).SameItems (d.put k v) :=
  ⟨h.capacity,fun x => by rw [find_put, find_put, hv, h.items]⟩

theorem victim (h : c.SameItems d) {v : V} (h' : ∀ x, (d.put k v).find x = (c.put k v).find x) :
    d.victim k = c.victim k := by
  cases hc : c.victim k with
  | none => rwa [victim_none, h.mem, h.size, h.capacity, ← victim_none]
  | some e =>
    obtain ⟨hk,he,-⟩ := victim_some hc
    have hne : e ≠ k := fun heq => hk (heq ▸ he)
    have hgone := h' e
    rw [find_put, find_put, if_neg hne, if_neg hne, if_pos hc] at hgone
    split at hgone
    · assumption
    · exact absurd ((h.mem e).mpr he) (find_none.mp hgone)

end SameItems

def touch (k : K) (order : List K) : List K := k :: order.filter (fun x => x ≠ k)

def OrderedBy (order : List K) (c : Cache K V) : Prop :=
  c.entries.keys = order.filter (fun k => k ∈ c.entries)

namespace OrderedBy

variable {order : List K}

theorem sublist_filter {l m : List K} (h : l.Sublist m) (hm : m.Nodup) :
    l = m.filter (fun x => x ∈ l) := by
  have hl : l.filter (fun x => x ∈ l) = l := List.filter_eq_self.mpr (by simp)
  have hsub : l.Sublist (m.filter (fun x => x ∈ l)) := by
    conv_lhs => rw [← hl]
    exact h.filter _
  refine hsub.eq_of_length (List.Perm.length_eq ?_)
  refine (List.perm_ext_iff_of_nodup (hm.sublist h) (hm.filter _)).mpr fun x => ?_
  simpa using fun hx => h.subset hx

theorem remove (h : c.OrderedBy order) (k : K) : (c.remove k).OrderedBy order := by
  rw [OrderedBy, keys_remove, h, List.filter_filter]
  refine List.filter_congr fun x _ => ?_
  have hx : x ∈ (c.remove k).entries ↔ x ≠ k ∧ x ∈ c.entries := AList.mem_erase
  rw [Bool.eq_iff_iff]
  simp [hx]

theorem touch (h : c.OrderedBy order) (hk : k ∉ c.entries) : c.OrderedBy (touch k order) := by
  rw [OrderedBy, Cache.touch, List.filter_cons_of_neg (by simpa using hk), List.filter_filter, h]
  refine List.filter_congr fun x _ => ?_
  rw [Bool.eq_iff_iff]
  simpa using fun (hx : x ∈ c.entries) (heq : x = k) => hk (heq ▸ hx)

theorem put (h : c.OrderedBy order) (k : K) (v : V) :
    (c.put k v).OrderedBy (Cache.touch k order) := by
  have hmem (x : K) : x ∈ (c.put k v).entries ↔ x = k ∨ x ∈ (c.others k).keys := List.mem_cons
  have hsub : (c.others k).keys.Sublist c.entries.keys := (c.others_sublist k).map _
  rw [OrderedBy, keys_put, Cache.touch, List.filter_cons_of_pos (by simp [hmem]),
    List.filter_filter, sublist_filter hsub c.entries.keys_nodup, h, List.filter_filter]
  refine congrArg (List.cons k) (List.filter_congr fun x _ => ?_)
  have hx : x ∈ (c.others k).keys → x ∈ c.entries ∧ x ≠ k := fun hx =>
    ⟨hsub.subset hx,fun heq => c.others_fresh k (heq ▸ hx)⟩
  rw [Bool.eq_iff_iff]
  simp only [Bool.and_eq_true, decide_eq_true_eq, hmem]
  tauto

end OrderedBy

namespace Behind

theorem put_self (c : Cache K V) (k : K) (v : V) : (c.put k v).Behind ∅ k :=
  ⟨[],(c.others k).keys,rfl,by simp⟩

theorem remove (h : c.Behind T k) (hy : y ≠ k) : (c.remove y).Behind T k := by
  obtain ⟨pre,post,hk,hpre⟩ := h
  refine ⟨pre.filter (fun x => x ≠ y),post.filter (fun x => x ≠ y),?_,fun x hx => ?_⟩
  · rw [keys_remove, hk, List.filter_append, List.filter_cons_of_pos (by simpa using hy.symm)]
  · exact hpre x (List.mem_of_mem_filter hx)

theorem adjust (h : c.Behind T k) (v : V) : (c.adjust y v).Behind T k := by
  obtain ⟨pre,post,hk,hpre⟩ := h
  exact ⟨pre,post,(List.map₂_keys ..).trans hk,hpre⟩

theorem put_present (h : c.Behind T k) (v : V) (hy : y ≠ k) (hT : y ∈ T) (hm : y ∈ c.entries) :
    (c.put y v).Behind T k := by
  obtain ⟨pre,post,hk,hpre⟩ := h.remove hy
  refine ⟨y :: pre,post,?_,List.forall_mem_cons.mpr ⟨hT,hpre⟩⟩
  have hkeys : (c.put y v).entries.keys = y :: (c.remove y).entries.keys := by
    rw [Cache.put_present v hm]
    rfl
  rw [hkeys, hk, List.cons_append]

theorem put_absent (h : c.Behind T k) (v : V) (hT : y ∈ T) (hm : y ∉ c.entries)
    (hcard : T.card < c.capacity) : (c.put y v).Behind T k := by
  obtain ⟨pre,post,hk,hpre⟩ := h
  have hnodup : (y :: pre).Nodup := by
    rw [AList.mem_keys, hk] at hm
    have hn := c.entries.keys_nodup
    rw [hk] at hn
    exact List.nodup_cons.mpr ⟨fun hx => hm (by simp [hx]),hn.of_append_left⟩
  have hlen : pre.length + 1 ≤ T.card := by
    rw [← List.length_cons, ← List.toFinset_card_of_nodup hnodup]
    refine Finset.card_le_card fun x hx => ?_
    rcases List.mem_cons.mp (List.mem_toFinset.mp hx) with rfl | hx
    · exact hT
    · exact hpre x hx
  have htake : (c.others y).keys = c.entries.keys.take (c.capacity - 1) := by
    simp [others, hm, List.keys, AList.keys]
  obtain ⟨n,hn⟩ : ∃ n, c.capacity - 1 = pre.length + (n + 1) := 
    ⟨c.capacity - 1 - pre.length - 1,by omega⟩
  refine ⟨y :: pre,post.take n,?_,List.forall_mem_cons.mpr ⟨hT,hpre⟩⟩
  rw [keys_put, htake, hk, hn]
  simp [List.take_append]

theorem put (h : c.Behind T k) (v : V) (hy : y ≠ k) (hT : y ∈ T) (hcard : T.card < c.capacity) :
    (c.put y v).Behind T k := by
  by_cases hm : y ∈ c.entries
  · exact h.put_present v hy hT hm
  · exact h.put_absent v hT hm hcard

end Behind

end Cache

end Recency
