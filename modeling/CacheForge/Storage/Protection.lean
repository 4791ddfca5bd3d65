import CacheForge.Storage.Answers

namespace CacheForge

open Recency (Cache)

def Call.uses : Call → Reply → Option Str
  | .set key _, _ => some key
  | .setWithTTL _ key _ _, _ => some key
  | .get _ key, .value (some _) => some key
  | _, _ => none

def Call.spares (k : Str) : Call → Bool
  | .set key _ => key ≠ k
  | .setWithTTL _ key _ _ => key ≠ k
  | .del _ key => key ≠ k
  | _ => true

namespace ShardedStorage

variable (hash : Str → Nat)

def used (cs : List Call) (st : ShardedStorage) : List Str :=
  (cs.zip (st.calls hash cs).1).filterMap (fun p => p.1.uses p.2)

theorem used_cons (x : Call) (cs : List Call) (st : ShardedStorage) :
    st.used hash (x :: cs) =
      (x.uses (st.call hash x).1).toList ++ (st.call hash x).2.used hash cs := by
  simp only [used, calls, Transducer.run, List.zip_cons_cons, List.filterMap_cons]
  cases x.uses (st.call hash x).1 <;> rfl

def rivals (k : Str) (cs : List Call) (st : ShardedStorage) : Finset Str :=
  ((st.used hash cs).filter (fun y => y ≠ k ∧ shardIndex hash y = shardIndex hash k)).toFinset

def Unexpired (k : Str) (st : ShardedStorage) (x : Call) : Prop :=
  ∀ n ∈ x.readings, ∀ i ∈ st.lookup hash k, itemExpired n i = false

instance (k : Str) (st : ShardedStorage) (x : Call) : Decidable (st.Unexpired hash k x) :=
  inferInstanceAs (Decidable (∀ n ∈ x.readings, ∀ i ∈ st.lookup hash k, _))

end ShardedStorage

structure Guarded (k v : Str) (T : Finset Str) (c : Cache Str Item) : Prop where
  behind : c.Behind T k
  value : ∃ d, c.find k = some (v, d)

namespace Guarded

variable {k v y : Str} {T : Finset Str} {c : Cache Str Item} {now : Int}

theorem mono {T' : Finset Str} (h : Guarded k v T c) (hT : T ⊆ T') : Guarded k v T' c :=
  ⟨h.behind.mono hT,h.value⟩

theorem put_self (c : Cache Str Item) (k v : Str) (d : Option Int) :
    Guarded k v ∅ (c.put k (v, d)) := ⟨.put_self c k _,d,c.find_put_self k _⟩

theorem remove (h : Guarded k v T c) (hy : y ≠ k) : Guarded k v T (c.remove y) := by
  obtain ⟨d,hd⟩ := h.value
  exact ⟨h.behind.remove hy,d,(Cache.find_remove_ne hy.symm).trans hd⟩

theorem put (h : Guarded k v T c) (hy : y ≠ k) (hT : y ∈ T) (hcard : T.card < c.capacity)
    (item : Item) : Guarded k v T (c.put y item) := by
  obtain ⟨d,hd⟩ := h.value
  have hb := h.behind.put item hy hT hcard
  exact ⟨hb,d,(Cache.find_put_ne hy.symm hb.mem).trans hd⟩

theorem adjust (h : Guarded k v T c) {item : Item} (hi : c.find y = some item) (d : Option Int) :
    Guarded k v T (c.adjust y (item.1, d)) := by
  obtain ⟨d',hd⟩ := h.value
  refine ⟨h.behind.adjust _,?_⟩
  rw [Cache.find_adjust, hd]
  by_cases hy : k = y
  · subst hy
    cases hi.symm.trans hd
    exact ⟨d,by simp⟩
  · exact ⟨d',by simp [hy]⟩

theorem visit {R : Type} (h : Guarded k v T c) {absent : R} {hit : Item → R × Cache Str Item}
    (hl : ∀ i ∈ c.find k, itemExpired now i = false)
    (hhit : ∀ item, c.find y = some item → itemExpired now item = false →
      Guarded k v T (hit item).2) :
    Guarded k v T (Reference.visit now y absent hit c).2 := by
  unfold Reference.visit
  cases hf : c.find y with
  | none => exact h
  | some item =>
    cases hx : itemExpired now item with
    | false => simpa [hx] using hhit item hf hx
    | true =>
      have hy : y ≠ k := by
        rintro rfl
        exact absurd (hl item hf) (by simp [hx])
      simpa [hx] using h.remove hy

theorem get (h : Guarded k v T c) (hl : ∀ i ∈ c.find k, itemExpired now i = false)
    (hT : ∀ w, (Reference.get now y c).1 = some w → y ≠ k → y ∈ T) (hcard : T.card < c.capacity) :
    Guarded k v T (Reference.get now y c).2 := by
  refine h.visit hl fun item hi hx => ?_
  by_cases hy : y = k
  · subst hy
    obtain ⟨d,hd⟩ := h.value
    cases hi.symm.trans hd
    exact (put_self c y v d).mono (Finset.empty_subset T)
  · refine h.put hy (hT item.1 ?_ hy) hcard item
    simp [Reference.get, Reference.visit, hi, hx]

theorem sweepKey_find (hl : ∀ i ∈ c.find k, itemExpired now i = false) :
    (Reference.sweepKey now y c).find k = c.find k := by
  unfold Reference.sweepKey Reference.visit
  cases hf : c.find y with
  | none => rfl
  | some item =>
    cases hx : itemExpired now item with
    | false => simp [hx]
    | true =>
      have hy : k ≠ y := by
        rintro rfl
        exact absurd (hl item hf) (by simp [hx])
      simpa [hx] using Cache.find_remove_ne hy

theorem sweep (h : Guarded k v T c) (hl : ∀ i ∈ c.find k, itemExpired now i = false)
    (order : List Str) : Guarded k v T (Reference.sweep now order c).2 := by
  unfold Reference.sweep
  induction order.take Shard.maxScanPerSweep generalizing c with
  | nil => exact h
  | cons y ys ih =>
    have hy : Guarded k v T (Reference.sweepKey now y c) := h.visit hl fun _ _ _ => h
    exact ih hy (sweepKey_find hl ▸ hl)

variable {hash : Str → Nat} {ref : Reference}

theorem locked {R : Type} (h : Guarded k v T (ref (shardIndex hash k))) {i : Fin numShards}
    {op : Cache Str Item → R × Cache Str Item}
    (hop : i = shardIndex hash k → Guarded k v T (op (ref (shardIndex hash k))).2) :
    Guarded k v T ((ref.locked i op).2 (shardIndex hash k)) := by
  rw [Reference.locked_at]
  split
  · rename_i hi
    exact hi ▸ hop hi.symm
  · exact h

theorem call (h : Guarded k v T (ref (shardIndex hash k))) {x : Call} (hs : x.spares k = true)
    (hl : ∀ n ∈ x.readings, ∀ i ∈ (ref (shardIndex hash k)).find k, itemExpired n i = false)
    (hT : ∀ y ∈ x.uses (ref.call hash x).1, y ≠ k → shardIndex hash y = shardIndex hash k → y ∈ T)
    (hcard : T.card < (ref (shardIndex hash k)).capacity) :
    Guarded k v T ((ref.call hash x).2 (shardIndex hash k)) := by
  cases x with
  | set y w =>
    have hy : y ≠ k := by simpa [Call.spares] using hs
    exact h.locked fun hi => h.put hy (hT y rfl hy hi) hcard _
  | setWithTTL now y w seconds =>
    have hy : y ≠ k := by simpa [Call.spares] using hs
    exact h.locked fun hi => h.put hy (hT y rfl hy hi) hcard _
  | get now y =>
    refine h.locked fun hi => h.get (hl now (by simp [Call.readings])) (fun w hw hy => ?_) hcard
    refine hT y ?_ hy hi
    simp [Reference.call, Reference.locked, hi, hw, Call.uses]
  | del now y =>
    have hy : y ≠ k := by simpa [Call.spares] using hs
    exact h.locked fun _ => h.visit (hl now (by simp [Call.readings])) fun _ _ _ => h.remove hy
  | expire now later y seconds =>
    simp only [Reference.call]
    split
    · exact h
    · exact h.locked fun _ => h.visit (hl now (by simp [Call.readings])) fun _ hi _ =>
        h.adjust hi _
  | ttl now later y =>
    exact h.locked fun _ => h.visit (hl now (by simp [Call.readings])) fun _ _ _ => h
  | size => exact h
  | sweepShard now i order =>
    exact h.locked fun _ => h.sweep (hl now (by simp [Call.readings])) order

end Guarded

section

variable {hash : Str → Nat} {k v : Str} {T : Finset Str} {st : ShardedStorage} {ref : Reference}

theorem Simulates.lookup (h : Simulates hash st ref) (k : Str) :
    st.lookup hash k = (ref (shardIndex hash k)).find k := (h.shards _).items k

theorem guarded_calls {cs : List Call} (hsim : Simulates hash st ref)
    (h : Guarded k v T (ref (shardIndex hash k))) (hs : ∀ x ∈ cs, x.spares k = true)
    (hl : Along.Holds (fun st x => (ShardedStorage.call hash st x).2)
      (ShardedStorage.Unexpired hash k) st cs)
    (hT : ∀ y ∈ st.used hash cs, y ≠ k → shardIndex hash y = shardIndex hash k → y ∈ T)
    (hcard : T.card < st.maxKeysPerShard) :
    ∃ d, (st.calls hash cs).2.lookup hash k = some (v, d) := by
  induction cs generalizing st ref with
  | nil =>
    obtain ⟨d,hd⟩ := h.value
    exact ⟨d,(hsim.lookup k).trans hd⟩
  | cons x cs ih =>
    obtain ⟨hx,hrest⟩ := hl
    obtain ⟨hreply,hnext⟩ := hsim.call x
    simp only [ShardedStorage.used_cons, List.mem_append, Option.mem_toList] at hT
    rw [hsim.capacity (shardIndex hash k)] at hcard
    have hstep := h.call (hs x (by simp)) (hsim.lookup k ▸ hx)
      (fun y hy => hT y (Or.inl (hreply ▸ hy))) hcard
    rw [← hsim.capacity, ← ShardedStorage.call_maxKeysPerShard hash st x] at hcard
    exact ih hnext hstep (fun y hy => hs y (by simp [hy])) hrest (fun y hy => hT y (Or.inr hy))
      hcard

theorem Reference.get_hit {now : Int} {y w : Str} {c : Cache Str Item}
    (h : (Reference.get now y c).1 = some w) :
    ∃ d, (Reference.get now y c).2 = c.put y (w, d) := by
  unfold Reference.get Reference.visit at h ⊢
  cases hf : c.find y with
  | none => simp [hf] at h
  | some item =>
    cases hx : itemExpired now item with
    | true => simp [hf, hx] at h
    | false =>
      obtain rfl : item.1 = w := by simpa [hf, hx] using h
      exact ⟨item.2,by simp [hx]⟩

theorem touched_guarded {x : Call} (hsim : Simulates hash st ref)
    (hx : x.uses (st.call hash x).1 = some k) :
    ∃ v, Guarded k v ∅ ((ref.call hash x).2 (shardIndex hash k)) := by
  have hput (w : Item) : Guarded k w.1 ∅
      ((ref.locked (shardIndex hash k) (Reference.put k w)).2 (shardIndex hash k)) := by
    rw [Reference.locked_at, if_pos rfl]
    exact Guarded.put_self _ k w.1 w.2
  cases x with
  | set y w =>
    cases hx
    exact ⟨w,hput (w, none)⟩
  | setWithTTL now y w seconds =>
    cases hx
    exact ⟨w,hput (w, _)⟩
  | get now y =>
    rw [(hsim.call _).1] at hx
    cases hr : (Reference.get now y (ref (shardIndex hash y))).1 with
    | none => simp [Reference.call, Reference.locked, hr, Call.uses] at hx
    | some w =>
      obtain ⟨d,hd⟩ := Reference.get_hit hr
      obtain rfl : y = k := by simpa [Reference.call, Reference.locked, hr, Call.uses] using hx
      refine ⟨w,?_⟩
      simpa [Reference.call, Reference.locked_at, hd] using Guarded.put_self _ y w d
  | _ => cases hx

end

theorem recent_key_protected (hash : Str → Nat) (maxKeys : Nat) (cs : List Call) (x : Call)
    (ys : List Call) (k : Str) (st : ShardedStorage)
    (hst : ((ShardedStorage.create maxKeys).calls hash cs).2 = st)
    (htouch : x.uses (st.call hash x).1 = some k) (hspare : ∀ y ∈ ys, y.spares k = true)
    (hlive : Along.Holds (fun st y => (ShardedStorage.call hash st y).2)
      (ShardedStorage.Unexpired hash k) (st.call hash x).2 ys)
    (hfew : ((st.call hash x).2.rivals hash k ys).card < (st.call hash x).2.maxKeysPerShard) :
    ∃ v d d', (st.call hash x).2.lookup hash k = some (v, d) ∧
      ((st.call hash x).2.calls hash ys).2.lookup hash k = some (v, d') := by
  have hsim : Simulates hash st ((Reference.create maxKeys).calls hash cs).2 :=
    hst ▸ ((Simulates.create hash maxKeys).calls cs).2
  obtain ⟨v,hg⟩ := touched_guarded hsim htouch
  have hnext := (hsim.call x).2
  obtain ⟨d,hd⟩ := hg.value
  obtain ⟨d',hd'⟩ := guarded_calls hnext (hg.mono (Finset.empty_subset _)) hspare hlive
    (fun y hy hne hi => by simp [ShardedStorage.rivals, hy, hne, hi]) hfew
  exact ⟨v,d,d',(hnext.lookup k).trans hd,hd'⟩

def busyCalls : List Call :=
  [.get 1 ['z'], .set ['b'] ['2'], .expire 2 2 ['k'] 5, .set ['c'] ['3'], .get 3 ['b'],
    .del 4 ['b'], .set ['c'] ['4'], .sweepShard 5 (shardIndex (fun _ => 0) ['k']) [['k'], ['c']]]

theorem busy_key_protected :
    ((((ShardedStorage.create 48).call (fun _ => 0) (.set ['k'] ['v'])).2.calls (fun _ => 0)
      busyCalls).2.lookup (fun _ => 0) ['k']).map Prod.fst = some ['v'] := by
  obtain ⟨v,d,d',hv,hv'⟩ := recent_key_protected (fun _ => 0) 48 [] (.set ['k'] ['v']) busyCalls
    ['k'] (.create 48) rfl rfl (by decide) (by decide +kernel) (by decide +kernel)
  have hval : ((((ShardedStorage.create 48).call (fun _ => 0) (.set ['k'] ['v'])).2.lookup
    (fun _ => 0) ['k'])).map Prod.fst = some ['v'] := by decide +kernel
  rw [hv] at hval
  rw [hv']
  exact hval

end CacheForge
