import CacheForge.Library.Window
import CacheForge.Storage.Reference

namespace CacheForge

namespace Shard

def overdue (t : Int) (s : Shard) (k : Str) : Bool := (s.lookup k).any (itemExpired t)

def Iterates (s : Shard) (order : List Str) : Prop := order.Nodup ∧ ∀ k, k ∈ order ↔ k ∈ s.data

def sweepNext (t : Int) (p : Shard × List Str) : Shard × List Str :=
  ((p.1.sweepShard t p.2).shard,
    p.2.filter (fun k => k ∈ (p.1.sweepShard t p.2).shard.data))

def sweeps (t : Int) (order : List Str) (n : Nat) (s : Shard) : Shard :=
  ((sweepNext t)^[n] (s, order)).1

variable {t : Int} {s : Shard}

theorem mem_data {k : Str} : k ∈ s.data ↔ s.lookup k ≠ none := by
  rw [← Finmap.mem_keys, mem_keys]

theorem live_overdue (t : Int) (s : Shard) (k : Str) :
    live t (s.lookup k) = if s.overdue t k = true then none else s.lookup k := by
  unfold overdue
  cases s.lookup k with
  | none => rfl
  | some i => cases hi : itemExpired t i <;> simp [live, hi]

theorem sweepEntry_live (t : Int) (o : Outcome Unit) (k x : Str) :
    (sweepEntry t o k).shard.lookup x =
      if x = k then live t (o.shard.lookup x) else o.shard.lookup x := by
  unfold sweepEntry
  cases hk : o.shard.data.lookup k with
  | none =>
    by_cases hx : x = k
    · simp [hx, lookup_none hk]
    · simp [hx]
  | some e =>
    have hitem := isExpired_item t e
    cases he : isExpired t e with
    | true =>
      rw [he] at hitem
      by_cases hx : x = k
      · simp [hx, he, removeEntry_lookup, lookup_some hk, live_expired hitem.symm]
      · simp [hx, he, removeEntry_lookup]
    | false =>
      rw [he] at hitem
      by_cases hx : x = k
      · simp [hx, he, lookup_some hk, live_some hitem.symm]
      · simp [hx, he]

theorem sweepEntries_live (t : Int) (ks : List Str) (o : Outcome Unit) (x : Str) :
    (ks.foldl (sweepEntry t) o).shard.lookup x =
      if x ∈ ks then live t (o.shard.lookup x) else o.shard.lookup x := by
  induction ks generalizing o with
  | nil => simp
  | cons k ks ih =>
    rw [List.foldl_cons, ih, sweepEntry_live]
    by_cases hx : x = k
    · simp [hx, live, Option.filter_filter]
    · simp [hx]

theorem sweepShard_live (t : Int) (order : List Str) (s : Shard) (x : Str) :
    (s.sweepShard t order).shard.lookup x =
      if x ∈ order.take maxScanPerSweep then live t (s.lookup x) else s.lookup x :=
  sweepEntries_live t _ ⟨(), s, 0, 0⟩ x

structure SweptTo (t : Int) (s : Shard) (l : List Str) (p : Shard × List Str) : Prop where
  order : p.2 = l
  nodup : l.Nodup
  kept : ∀ x ∈ l, p.1.lookup x = s.lookup x ∧ s.lookup x ≠ none
  gone : ∀ x, x ∉ l → p.1.lookup x = none

theorem SweptTo.next {l : List Str} {p : Shard × List Str} (h : SweptTo t s l p) :
    SweptTo t s (Window.pass maxScanPerSweep (s.overdue t) l) (sweepNext t p) := by
  obtain ⟨rfl,hnodup,hkept,hgone⟩ := h
  have hsub : (Window.pass maxScanPerSweep (s.overdue t) p.2).Sublist p.2 :=
    Window.pass_sublist p.2
  have hstay : ∀ x ∈ Window.pass maxScanPerSweep (s.overdue t) p.2,
      (p.1.sweepShard t p.2).shard.lookup x = s.lookup x := by
    intro x hx
    obtain ⟨hm,ho⟩ := (Window.mem_pass hnodup).mp hx
    rw [sweepShard_live, (hkept x hm).1, live_overdue]
    by_cases ht : x ∈ p.2.take maxScanPerSweep
    · simp [ht, ho ht]
    · simp [ht]
  have hleave : ∀ x, x ∉ Window.pass maxScanPerSweep (s.overdue t) p.2 →
      (p.1.sweepShard t p.2).shard.lookup x = none := by
    intro x hx
    by_cases hm : x ∈ p.2
    · obtain ⟨ht,ho⟩ : x ∈ p.2.take maxScanPerSweep ∧ s.overdue t x = true := by
        simpa [Window.mem_pass hnodup, hm] using hx
      rw [sweepShard_live, (hkept x hm).1, live_overdue]
      simp [ht, ho]
    · have ht : x ∉ p.2.take maxScanPerSweep := fun h => hm (List.mem_of_mem_take h)
      simp [sweepShard_live, ht, hgone x hm]
  refine ⟨Window.filter_pass hnodup fun x hx => ?_,hnodup.sublist hsub,fun x hx => ?_,hleave⟩
  · rw [decide_eq_true_eq, mem_data]
    refine ⟨fun hne => ?_,fun hm => hstay x hm ▸ (hkept x hx).2⟩
    by_contra hm
    exact hne (hleave x hm)
  · exact ⟨hstay x hx,(hkept x (hsub.subset hx)).2⟩

theorem sweptTo_sweeps {order : List Str} (h : s.Iterates order) (n : Nat) :
    SweptTo t s ((Window.pass maxScanPerSweep (s.overdue t))^[n] order)
      ((sweepNext t)^[n] (s, order)) := by
  induction n with
  | zero =>
    refine ⟨rfl,h.1,fun x hx => ⟨rfl,mem_data.mp ((h.2 x).mp hx)⟩,fun x hx => ?_⟩
    by_contra hne
    exact hx ((h.2 x).mpr (mem_data.mpr hne))
  | succ n ih =>
    rw [Function.iterate_succ_apply', Function.iterate_succ_apply']
    exact ih.next

end Shard

theorem sweeps_reclaim_iff (s : Shard) (t : Int) (order : List Str) (h : s.Iterates order) :
    (∃ n, ∀ k i, (s.sweeps t order n).lookup k = some i → itemExpired t i = false) ↔
      ∀ pre k post, order = pre ++ k :: post → s.overdue t k = true →
        (pre.filter (fun x => !s.overdue t x)).length < Shard.maxScanPerSweep := by
  have hwindow : (∃ n, Window.Clean (s.overdue t)
      ((Window.pass Shard.maxScanPerSweep (s.overdue t))^[n] order)) ↔
        Window.Reached Shard.maxScanPerSweep (s.overdue t) order :=
    Window.eventually_clean_iff order
  refine Iff.trans (exists_congr fun n => ?_) hwindow
  have hs := Shard.sweptTo_sweeps (t := t) h n
  constructor
  · intro hclean k hk
    obtain ⟨hkept,hne⟩ := hs.kept k hk
    obtain ⟨i,hi⟩ := Option.ne_none_iff_exists'.mp hne
    have hx := hclean k i (hkept.trans hi)
    simp [Shard.overdue, hi, hx]
  · intro hclean k i hi
    have hk : k ∈ (Window.pass Shard.maxScanPerSweep (s.overdue t))^[n] order := by
      by_contra hk
      have hnone := hs.gone k hk
      rw [Shard.sweeps, hnone] at hi
      cases hi
    have hx := hclean k hk
    rw [Shard.sweeps, (hs.kept k hk).1] at hi
    simpa [Shard.overdue, hi] using hx

def leasedShard : Shard :=
  ((ShardedStorage.create 48).calls (fun _ => 0) [.setWithTTL 0 ['k'] ['v'] 1,
    .set ['a'] ['1']]).2.shards (shardIndex (fun _ => 0) ['k'])

theorem leased_key_swept :
    leasedShard.overdue 1000000000 ['k'] = true ∧
      ∃ n, ∀ k i, (leasedShard.sweeps 1000000000 [['a'], ['k']] n).lookup k = some i →
        itemExpired 1000000000 i = false := by
  refine ⟨by decide +kernel,?_⟩
  refine (sweeps_reclaim_iff leasedShard 1000000000 [['a'], ['k']] ⟨by decide,fun k => ?_⟩).mpr ?_
  · have hk : leasedShard.data.keys = [['a'], ['k']].toFinset := by decide +kernel
    rw [← Finmap.mem_keys, hk, List.mem_toFinset]
  · intro pre k post horder _
    have hlen := congrArg List.length horder
    simp only [List.length_append, List.length_cons] at hlen
    have hshort : pre.length < Shard.maxScanPerSweep := by
      simp only [List.length_nil, Shard.maxScanPerSweep] at hlen ⊢
      omega
    exact (List.length_filter_le ..).trans_lt hshort

theorem filled (hash : Str → Nat) (i : Fin numShards) (v : Str) (ks : List Str)
    (hks : ∀ k ∈ ks, shardIndex hash k = i) (ref : Reference)
    (hroom : (ref i).size + ks.length ≤ (ref i).capacity) :
    ((ref.calls hash (ks.map (fun k => .set k v))).2 i).capacity = (ref i).capacity ∧
      ((ref.calls hash (ks.map (fun k => .set k v))).2 i).size ≤ (ref i).size + ks.length ∧
      ∀ x, ((ref.calls hash (ks.map (fun k => .set k v))).2 i).find x =
        if x ∈ ks then some (v, none) else (ref i).find x := by
  induction ks generalizing ref with
  | nil => simp [Reference.calls, Transducer.run]
  | cons k ks ih =>
    have hk : (ref.call hash (.set k v)).2 i = (ref i).put k (v, none) := by
      simp [Reference.call, Reference.locked_at, hks k (by simp), Reference.put]
    rw [List.length_cons] at hroom ⊢
    obtain ⟨hsize,hfind⟩ := Recency.Cache.put_room (c := ref i) (by omega) k (v, none)
    have hcap : ((ref i).put k (v, none)).capacity = (ref i).capacity := rfl
    have hrest := ih (fun k hk => hks k (by simp [hk])) (ref.call hash (.set k v)).2
      (by rw [hk, hcap]; omega)
    rw [hk] at hrest
    obtain ⟨hcap',hsize',hfind'⟩ := hrest
    refine ⟨hcap'.trans hcap,hsize'.trans (by omega),fun x => (hfind' x).trans ?_⟩
    rw [hfind]
    by_cases hx : x = k <;> simp [hx]

theorem filled_around (hash : Str → Nat) (now : Int) {n : Int} (hn : 0 ≤ n) (k v w : Str)
    (ks ks' : List Str)
    (hks : ∀ x ∈ ks ++ ks', shardIndex hash x = shardIndex hash k) (hk : k ∉ ks ++ ks')
    (ref : Reference)
    (hroom : (ref (shardIndex hash k)).size + (ks.length + 1 + ks'.length) ≤
      (ref (shardIndex hash k)).capacity) (x : Str) :
    ((ref.calls hash (ks.map (fun k => .set k v) ++ .setWithTTL now k w n ::
        ks'.map (fun k => .set k v))).2 (shardIndex hash k)).find x =
      if x ∈ ks ++ ks' then some (v, none)
      else if x = k then some (w, some (deadlineAfter now n))
      else (ref (shardIndex hash k)).find x := by
  obtain ⟨hcap,hsize,hfind⟩ := filled hash (shardIndex hash k) v ks
    (fun x hx => hks x (by simp [hx])) ref (by omega)
  rw [Reference.calls, Transducer.run_append]
  change ((Reference.calls hash (ks'.map (fun k => .set k v)) (Reference.call hash
    (Reference.calls hash (ks.map (fun k => .set k v)) ref).2 (.setWithTTL now k w n)).2).2
      (shardIndex hash k)).find x = _
  generalize (Reference.calls hash (ks.map (fun k => .set k v)) ref).2 = mid at hcap hsize hfind ⊢
  have hput : (mid.call hash (.setWithTTL now k w n)).2 (shardIndex hash k) =
      (mid (shardIndex hash k)).put k (w, some (deadlineAfter now n)) := by
    simp [Reference.call, Reference.locked_at, Reference.put, hn.not_gt]
  obtain ⟨hone,hself⟩ := Recency.Cache.put_room (c := mid (shardIndex hash k)) (by omega) k
    (w, some (deadlineAfter now n))
  have hcap' : ((mid (shardIndex hash k)).put k (w, some (deadlineAfter now n))).capacity =
      (mid (shardIndex hash k)).capacity := rfl
  obtain ⟨-,-,hrest⟩ := filled hash (shardIndex hash k) v ks'
    (fun x hx => hks x (by simp [hx])) (mid.call hash (.setWithTTL now k w n)).2
    (by rw [hput, hcap']; omega)
  rw [hrest, hput, hself, hfind]
  by_cases hx : x = k
  · subst hx
    simp_all
  · by_cases hx' : x ∈ ks <;> by_cases hx'' : x ∈ ks' <;> simp [hx, hx', hx'']

def crowd : List Str := (List.range 100).map (fun n => List.replicate (n + 1) 'a')

def crowdedCalls : List Call :=
  (crowd.take 58).map (fun k => .set k ['1']) ++ .setWithTTL 0 ['k'] ['v'] 1 ::
    (crowd.drop 58).map (fun k => .set k ['1'])

def crowdedShard : Shard :=
  ((ShardedStorage.create 100000).calls (fun _ => 0) crowdedCalls).2.shards
    (shardIndex (fun _ => 0) ['k'])

theorem crowded_lookup (x : Str) :
    crowdedShard.lookup x =
      if x ∈ crowd then some (['1'], none)
      else if x = ['k'] then some (['v'], some 1000000000) else none := by
  have hshard := (((Simulates.create (fun _ => 0) 100000).calls crowdedCalls).2.shards
    (shardIndex (fun _ => 0) ['k'])).items x
  have hfill := filled_around (fun _ => 0) 0 Int.one_nonneg ['k'] ['1'] ['v'] (crowd.take 58)
    (crowd.drop 58) (fun _ _ => rfl) (by decide +kernel) (.create 100000) (by decide +kernel) x
  rw [List.take_append_drop] at hfill
  exact hshard.trans hfill

theorem crowded_key_never_swept :
    crowdedShard.Iterates (crowd ++ [['k']]) ∧
      ∀ n, (crowdedShard.sweeps 1000000000 (crowd ++ [['k']]) n).lookup ['k'] =
        some (['v'], some 1000000000) := by
  have hk : ['k'] ∉ crowd := by decide +kernel
  have hlookup := crowded_lookup ['k']
  rw [if_neg hk, if_pos rfl] at hlookup
  have hnodup : crowd.Nodup := by
    refine List.Nodup.map (fun m n h => ?_) List.nodup_range
    simpa using congrArg List.length h
  have hiter : crowdedShard.Iterates (crowd ++ [['k']]) := by
    refine ⟨List.nodup_append.mpr ⟨hnodup,List.nodup_singleton _,by grind⟩,fun x => ?_⟩
    rw [Shard.mem_data, crowded_lookup, List.mem_append, List.mem_singleton]
    by_cases hx : x ∈ crowd
    · simp [hx]
    · by_cases hxk : x = ['k'] <;> simp [hx, hxk, hk]
  have hgood : Window.good (crowdedShard.overdue 1000000000) crowd = crowd :=
    Window.clean_good fun x hx => by simp [Shard.overdue, crowded_lookup, hx, itemExpired]
  refine ⟨hiter,fun n => ?_⟩
  obtain ⟨pre,hpre,-⟩ := Window.stuck_passes (w := Shard.maxScanPerSweep) (l := crowd ++ [['k']])
    rfl (by rw [hgood, crowd, List.length_map, List.length_range]; rfl) n
  have hkept := ((Shard.sweptTo_sweeps (t := 1000000000) hiter n).kept ['k'] (by simp [hpre])).1
  exact hkept.trans hlookup

end CacheForge
