import CacheForge.Storage.Expiration

namespace CacheForge

def Shard.deadline (s : Shard) (k : Str) : Option Int := (s.lookup k).bind Prod.snd

def Call.deadline : Call → Option Int
  | .setWithTTL now _ _ seconds => if seconds < 0 then none else some (deadlineAfter now seconds)
  | .expire _ later _ seconds => if seconds < 0 then none else some (deadlineAfter later seconds)
  | _ => none

def Call.Forward (c : Call) : Prop := ∀ r ∈ c.readings, ∀ d ∈ c.deadline.toList, r ≤ d

instance (c : Call) : Decidable c.Forward := inferInstanceAs (Decidable (∀ r ∈ c.readings, _))

namespace Shard

variable {s : Shard} {k : Str} {d : Int}

theorem deadline_live {now : Int} {x : Option Item} (h : (live now x).bind Prod.snd = some d) :
    x.bind Prod.snd = some d := by
  obtain ⟨i,hi,hd⟩ := Option.bind_eq_some_iff.mp h
  rw [live_eq_some hi]
  exact hd

theorem deadline_visited {now : Int} {key : Str} {t : Shard}
    (ht : ∀ x, t.lookup x = if x = key then live now (s.lookup key) else s.lookup x)
    (h : t.deadline k = some d) : s.deadline k = some d := by
  rw [deadline, ht] at h
  split at h
  · rename_i hk
    exact hk ▸ deadline_live h
  · exact h

theorem del_deadline {now : Int} {key : Str} (h : (s.del now key).shard.deadline k = some d) :
    s.deadline k = some d := by
  rw [deadline, (del_spec now key s).2.2] at h
  split at h
  · cases h
  · exact h

theorem expire_deadline {now later seconds : Int} {key : Str}
    (h : (s.expire now later key seconds).shard.deadline k = some d) :
    s.deadline k = some d ∨ d = deadlineAfter later seconds := by
  rw [deadline, (expire_spec now later key seconds s).2.2] at h
  split at h
  · cases hl : live now (s.lookup key) <;> rw [hl] at h <;> cases h
    exact .inr rfl
  · exact .inl h

theorem insertOrUpdate_deadline {cap : Nat} {key v : Str} {e : Option Int}
    (h : (s.insertOrUpdate cap key v e).shard.deadline k = some d) :
    s.deadline k = some d ∨ e = some d := by
  obtain ⟨hself,hother,-⟩ := insertOrUpdate_spec cap key v e s
  by_cases hk : k = key
  · rw [deadline, hk, hself] at h
    exact .inr h
  · rw [deadline] at h
    rcases hother k hk with hsame | hnone
    · rw [hsame] at h
      exact .inl h
    · rw [hnone] at h
      cases h

theorem sweepShard_deadline {now : Int} {order : List Str}
    (h : (s.sweepShard now order).shard.deadline k = some d) : s.deadline k = some d := by
  rw [deadline] at h
  rcases (sweepShard_spec now order s).2 k with hsame | ⟨hnone,-⟩
  · rwa [hsame] at h
  · rw [hnone] at h
    cases h

theorem sweepShard_clears {now : Int} {order : List Str} (ho : s.Iterates order)
    (hlen : order.length ≤ maxScanPerSweep)
    (h : (s.sweepShard now order).shard.deadline k = some d) : now < d := by
  rw [deadline, sweepShard_live, List.take_of_length_le hlen, live_overdue] at h
  by_cases hk : k ∈ order
  · cases hx : s.overdue now k with
    | true => simp [hk, hx] at h
    | false =>
      obtain ⟨i,hi,hd⟩ := Option.bind_eq_some_iff.mp (by simpa [hk, hx] using h)
      simpa [overdue, hi, itemExpired, hd] using hx
  · have hnone : s.lookup k = none := by
      by_contra hne
      exact hk ((ho.2 k).mpr (mem_data.mpr hne))
    simp [hk, hnone] at h

end Shard

theorem ShardedStorage.locked_deadline {R : Type} {i : Fin numShards} {op : Shard → Outcome R}
    {st : ShardedStorage} {fresh : Option Int}
    (h : ∀ k d, (op (st.shards i)).shard.deadline k = some d →
      (st.shards i).deadline k = some d ∨ fresh = some d) (j : Fin numShards) {k : Str} {d : Int}
    (hd : ((st.locked i op).2.shards j).deadline k = some d) :
    (st.shards j).deadline k = some d ∨ fresh = some d := by
  rw [locked_shards] at hd
  split at hd
  · rename_i hj
    exact hj ▸ h k d hd
  · exact .inl hd

theorem ShardedStorage.call_deadline {hash : Str → Nat} {st : ShardedStorage} {c : Call}
    {j : Fin numShards} {k : Str} {d : Int}
    (h : ((st.call hash c).2.shards j).deadline k = some d) :
    (st.shards j).deadline k = some d ∨ c.deadline = some d := by
  cases c with
  | set key value =>
    exact locked_deadline (fun _ _ hd => Shard.insertOrUpdate_deadline hd) j h
  | setWithTTL now key value seconds =>
    exact locked_deadline (fun _ _ hd => Shard.insertOrUpdate_deadline hd) j h
  | get now key =>
    exact locked_deadline (fun _ _ hd => .inl (Shard.deadline_visited (Shard.get_spec ..).2.2 hd)) j h
  | del now key => exact locked_deadline (fun _ _ hd => .inl (Shard.del_deadline hd)) j h
  | expire now later key seconds =>
    simp only [call, expire] at h
    rw [Call.deadline]
    split at h
    · exact .inl h
    · rename_i hs
      refine locked_deadline (fun _ _ hd => (Shard.expire_deadline hd).imp_right ?_) j h
      intro hd
      rw [if_neg hs, hd]
  | ttl now later key =>
    exact locked_deadline (fun _ _ hd => .inl (Shard.deadline_visited (Shard.ttl_spec ..).2 hd)) j h
  | size => exact .inl h
  | sweepShard now i order =>
    exact locked_deadline (fun _ _ hd => .inl (Shard.sweepShard_deadline hd)) j h

namespace SweepOut

def call : SweepOut → Option Call
  | called c _ => some c
  | _ => none

def readings : SweepOut → List Int
  | called c _ => c.readings
  | slept now => [now]
  | woke now => [now]

def sweptAt (i : Fin numShards) : SweepOut → Option Int
  | called (.sweepShard now j _) _ => if j = i then some now else none
  | _ => none

end SweepOut

-- The clock is steady: no reading is earlier than one made before it.
def SteadyOuts (os : List SweepOut) : Prop := (os.flatMap SweepOut.readings).Pairwise (· ≤ ·)

instance (os : List SweepOut) : Decidable (SteadyOuts os) :=
  inferInstanceAs (Decidable (List.Pairwise _ _))

theorem SteadyOuts.split {os o : List SweepOut} (h : SteadyOuts (os ++ o)) :
    SteadyOuts os ∧ ∀ a ∈ os.flatMap SweepOut.readings, ∀ b ∈ o.flatMap SweepOut.readings, a ≤ b := by
  rw [SteadyOuts, List.flatMap_append, List.pairwise_append] at h
  exact ⟨h.1,h.2.2⟩

theorem Call.deadline_reading {c : Call} {d : Int} (h : c.deadline = some d) :
    ∃ r, r ∈ c.readings := by
  cases c with
  | setWithTTL now key value seconds => exact ⟨now,by simp [Call.readings]⟩
  | expire now later key seconds => exact ⟨now,by simp [Call.readings]⟩
  | _ => cases h

namespace Expiration

variable {hash : Str → Nat} {x y : Expiration} {e : SweepEvent} {os o : List SweepOut}

def Reclaimed (x : Expiration) (os : List SweepOut) : Prop :=
  ∀ i now order r, .called (.sweepShard now i order) r ∈ os →
    order.length ≤ Shard.maxScanPerSweep →
    ∀ k d, (x.storage.shards i).deadline k = some d → now ≤ d

theorem swept_reading {c : Call} {r : Reply} {t : Int} (h : .called c r ∈ os)
    (ht : t ∈ c.readings) : t ∈ os.flatMap SweepOut.readings :=
  List.mem_flatMap.mpr ⟨_,h,ht⟩

theorem Reclaimed.silent (h : x.Reclaimed os) (hs : y.storage = x.storage)
    (ho : ∀ c r, .called c r ∉ o) : y.Reclaimed (os ++ o) := by
  intro i now order r hm
  rw [hs]
  rcases List.mem_append.mp hm with hm | hm
  · exact h i now order r hm
  · exact absurd hm (ho _ r)

variable (hash) in
theorem Reclaimed.kept (h : x.Reclaimed os) {c : Call} {r : Reply}
    (hsteady : SteadyOuts (os ++ [.called c r])) (hforward : c.Forward) {i : Fin numShards}
    {now : Int} {order : List Str} {r' : Reply} (hm : .called (.sweepShard now i order) r' ∈ os)
    (hlen : order.length ≤ Shard.maxScanPerSweep) {k : Str} {d : Int}
    (hd : ((x.storage.call hash c).2.shards i).deadline k = some d) : now ≤ d := by
  rcases ShardedStorage.call_deadline hd with hold | hnew
  · exact h i now order r' hm hlen k d hold
  · obtain ⟨t,ht⟩ := Call.deadline_reading hnew
    have hle : now ≤ t :=
      hsteady.split.2 now (swept_reading hm (by simp [Call.readings])) t
        (by simpa [SweepOut.readings] using ht)
    exact hle.trans (hforward t ht d (by simp [hnew]))

theorem Reclaimed.step (h : x.Reclaimed os) (hsteady : SteadyOuts (os ++ o))
    (hforward : ∀ c ∈ o.filterMap SweepOut.call, c.Forward) (hstep : Step hash x e y o) :
    y.Reclaimed (os ++ o) := by
  cases hstep with
  | call c hc =>
    intro i now order r hm hlen k d hd
    rcases List.mem_append.mp hm with hm | hm
    · exact h.kept hash hsteady (hforward c (by simp [perform, SweepOut.call])) hm hlen hd
    · obtain ⟨rfl,-⟩ := SweepOut.called.inj (List.mem_singleton.mp hm)
      cases hc
  | sweep now order i rest ht ho =>
    intro j t order' r hm hlen k d hd
    rcases List.mem_append.mp hm with hm | hm
    · exact h.kept hash hsteady (by simp [Call.Forward, Call.deadline]) hm hlen hd
    · obtain ⟨hcall,-⟩ := SweepOut.called.inj (List.mem_singleton.mp hm)
      obtain ⟨rfl,rfl,rfl⟩ := Call.sweepShard.inj hcall
      have hd' : (((x.storage.shards j).sweepShard t order').shard).deadline k = some d := by
        simpa [perform, ShardedStorage.call, ShardedStorage.sweepShard,
          ShardedStorage.locked_shards] using hd
      exact (Shard.sweepShard_clears ho hlen hd').le
  | _ => exact h.silent rfl (by simp)

theorem run_storage {maxKeys : Nat} {es : List SweepEvent}
    (h : (expiration hash).Run Machine.anyStep (.create maxKeys) es x os) :
    x.storage = ((ShardedStorage.create maxKeys).calls hash (os.filterMap SweepOut.call)).2 := by
  refine h.invariant (fun x os => x.storage =
    ((ShardedStorage.create maxKeys).calls hash (os.filterMap SweepOut.call)).2) rfl ?_
  intro x os e y o hx _ hstep
  rw [List.filterMap_append]
  cases step_cases hstep with
  | call c hc | sweep now order i rest ht ho =>
    simp only [perform, SweepOut.call, List.filterMap_cons, List.filterMap_nil, hx]
    rw [ShardedStorage.calls, ShardedStorage.calls, Transducer.run_snoc]
  | _ => simpa [SweepOut.call, List.filterMap_cons] using hx

end Expiration

theorem swept_keys_reclaimed (hash : Str → Nat) (maxKeys : Nat) {es : List SweepEvent}
    {x : Expiration} {os : List SweepOut}
    (h : (expiration hash).Run Machine.anyStep (.create maxKeys) es x os)
    (hsteady : SteadyOuts os) (hforward : ∀ c ∈ os.filterMap SweepOut.call, c.Forward) :
    x.storage = ((ShardedStorage.create maxKeys).calls hash (os.filterMap SweepOut.call)).2 ∧
      ∀ i now order r, .called (.sweepShard now i order) r ∈ os →
        order.length ≤ Shard.maxScanPerSweep →
        ∀ k v d, (x.storage.shards i).lookup k = some (v, some d) → now ≤ d := by
  have hreclaimed := h.invariant (fun x os => SteadyOuts os →
    (∀ c ∈ os.filterMap SweepOut.call, c.Forward) → x.Reclaimed os) ?_ ?_ hsteady hforward
  · refine ⟨Expiration.run_storage h,fun i now order r hm hlen k v d hk => ?_⟩
    exact hreclaimed i now order r hm hlen k d (by simp [Shard.deadline, hk])
  · exact fun _ _ _ _ _ _ hm => absurd hm List.not_mem_nil
  · intro x os e y o ih _ hstep hsteady hforward
    rw [List.filterMap_append] at hforward
    refine (ih hsteady.split.1 fun c hc => hforward c (by simp [hc])).step hsteady ?_
      (Expiration.step_cases hstep)
    exact fun c hc => hforward c (List.mem_append_right _ hc)

def leaseSwept : List SweepEvent :=
  [.call (.set ['k'] ['v']), .call (.expire 0 0 ['k'] 1), .call (.set ['a'] ['1']),
    .startExpirationSweep, .test, .look, .sweepShard 1000000000 [['a'], ['k']],
    .call (.expire 1000000000 1000000001 ['a'] 5)]

theorem lease_swept_reclaimed :
    ∃ x os, (expiration (fun _ => 0)).Run Machine.anyStep (.create 48) leaseSwept x os ∧
      (x.storage = ((ShardedStorage.create 48).calls (fun _ => 0) (os.filterMap SweepOut.call)).2 ∧
        ∀ i now order r, .called (.sweepShard now i order) r ∈ os →
          order.length ≤ Shard.maxScanPerSweep →
          ∀ k v d, (x.storage.shards i).lookup k = some (v, some d) → now ≤ d) ∧
      x.storage.lookup (fun _ => 0) ['k'] = none ∧
      x.storage.lookup (fun _ => 0) ['a'] = some (['1'], some 6000000001) :=
  ⟨_,_,Machine.run_of_exec (by decide +kernel),
    swept_keys_reclaimed _ 48 (Machine.run_of_exec (by decide +kernel)) (by decide +kernel)
      (by decide +kernel),by decide +kernel,by decide +kernel⟩

def Sweeper.due : Option Sweeper → List (Fin numShards)
  | some (.looking rest) => rest
  | some (.sweeping i rest) => i :: rest
  | some (.sleeping _) => []
  | _ => List.finRange numShards

namespace Expiration

variable {hash : Str → Nat} {x y : Expiration} {e : SweepEvent} {os o : List SweepOut}

def Rested (os : List SweepOut) (t : Int) : Prop :=
  ∃ r ∈ os.flatMap SweepOut.readings, t + sweepInterval ≤ r

theorem Rested.append {t : Int} (h : Rested os t) (o : List SweepOut) : Rested (os ++ o) t := by
  obtain ⟨r,hr,hle⟩ := h
  exact ⟨r,by simp [hr],hle⟩

theorem sweptAt_reading {i : Fin numShards} {t : Int} (h : t ∈ os.filterMap (SweepOut.sweptAt i)) :
    t ∈ os.flatMap SweepOut.readings := by
  obtain ⟨out,hm,ht⟩ := List.mem_filterMap.mp h
  refine List.mem_flatMap.mpr ⟨out,hm,?_⟩
  unfold SweepOut.sweptAt at ht
  split at ht
  · split at ht <;> cases ht
    simp [SweepOut.readings, Call.readings]
  · cases ht

theorem sweptAt_silent {i : Fin numShards} (os : List SweepOut)
    (ho : o.filterMap (SweepOut.sweptAt i) = []) :
    (os ++ o).filterMap (SweepOut.sweptAt i) = os.filterMap (SweepOut.sweptAt i) := by
  rw [List.filterMap_append, ho, List.append_nil]

structure Paced (x : Expiration) (os : List SweepOut) : Prop where
  nodup : (Sweeper.due x.thread).Nodup
  rested : ∀ i ∈ Sweeper.due x.thread, ∀ t ∈ os.filterMap (SweepOut.sweptAt i), Rested os t
  asleep : ∀ w, x.thread = some (.sleeping w) →
    ∀ i, ∀ t ∈ os.filterMap (SweepOut.sweptAt i), t + sweepInterval ≤ w
  spaced : ∀ i, (os.filterMap (SweepOut.sweptAt i)).Pairwise (fun a b => a + sweepInterval ≤ b)

theorem paced_create (maxKeys : Nat) : Paced (.create maxKeys) [] :=
  ⟨List.nodup_finRange _,by simp,by simp,by simp⟩

theorem Paced.same (h : x.Paced os) (ht : y.thread = x.thread)
    (ho : ∀ i, o.filterMap (SweepOut.sweptAt i) = []) : y.Paced (os ++ o) := by
  refine ⟨ht ▸ h.nodup,?_,?_,?_⟩
  · intro i hi t hm
    rw [sweptAt_silent os (ho i)] at hm
    exact (h.rested i (ht ▸ hi) t hm).append o
  · intro w hw i t hm
    rw [sweptAt_silent os (ho i)] at hm
    exact h.asleep w (ht ▸ hw) i t hm
  · intro i
    rw [sweptAt_silent os (ho i)]
    exact h.spaced i

theorem Paced.moves (h : x.Paced os) (hdue : Sweeper.due y.thread = Sweeper.due x.thread)
    (hw : ∀ w, y.thread ≠ some (.sleeping w)) : y.Paced (os ++ []) := by
  rw [List.append_nil]
  exact ⟨hdue ▸ h.nodup,hdue ▸ h.rested,fun w hs => absurd hs (hw w),h.spaced⟩

theorem Paced.step (h : x.Paced os) (hsteady : SteadyOuts (os ++ o))
    (hstep : Step hash x e y o) : y.Paced (os ++ o) := by
  have hle := hsteady.split.2
  cases hstep with
  | starts hj ht => exact h.moves (by rw [ht]; rfl) (by simp)
  | started w hj ht => exact h.same rfl (by simp)
  | stops w hj ht => exact h.same rfl (by simp)
  | stopped hj ht => exact h.same rfl (by simp)
  | joins hj ht => exact h.moves (by rw [ht]; rfl) (by simp)
  | finish ht hs => exact h.moves (by rw [ht]; rfl) (by simp)
  | begin ht hs => exact h.moves (by rw [ht]; rfl) (by simp)
  | look i rest ht hs => exact h.moves (by rw [ht]; rfl) (by simp)
  | call c hc =>
    refine h.same rfl fun i => ?_
    cases c with
    | sweepShard => cases hc
    | _ => rfl
  | sweep now order i rest ht ho =>
    have hnodup := h.nodup
    have hrested := h.rested
    rw [ht] at hnodup hrested
    obtain ⟨hi,hrest⟩ := List.nodup_cons.mp hnodup
    have hother (j : Fin numShards) (hj : j ≠ i) (r : Reply) :=
      sweptAt_silent (i := j) (o := [.called (.sweepShard now i order) r]) os
        (by simp [SweepOut.sweptAt, hj.symm])
    refine ⟨hrest,?_,?_,?_⟩
    · intro j hj t hm
      rw [perform, hother j (fun hij => hi (hij ▸ hj))] at hm
      exact (hrested j (List.mem_cons_of_mem i hj) t hm).append _
    · intro w hw
      cases hw
    · intro j
      by_cases hj : j = i
      · subst hj
        have hnew (r : Reply) : [SweepOut.called (.sweepShard now j order) r].filterMap
            (SweepOut.sweptAt j) = [now] := by
          simp [SweepOut.sweptAt]
        rw [perform, List.filterMap_append, hnew, List.pairwise_append]
        refine ⟨h.spaced j,List.pairwise_singleton _ _,fun t hm b hb => ?_⟩
        obtain ⟨r,hr,htr⟩ := hrested j List.mem_cons_self t hm
        rw [List.mem_singleton.mp hb]
        exact htr.trans (hle r hr now (by simp [perform, SweepOut.readings, Call.readings]))
      · rw [perform, hother j hj]
        exact h.spaced j
  | sleep now rest ht =>
    have hsame (i : Fin numShards) := sweptAt_silent (i := i) (o := [.slept now]) os rfl
    refine ⟨List.nodup_nil,by simp [Sweeper.due],?_,fun i => hsame i ▸ h.spaced i⟩
    intro w hw i t hm
    cases hw
    have hread := hle t (sweptAt_reading (hsame i ▸ hm)) now (by simp [SweepOut.readings])
    omega
  | wake now w ht hn =>
    have hsame (i : Fin numShards) := sweptAt_silent (i := i) (o := [.woke now]) os rfl
    refine ⟨List.nodup_finRange _,?_,by simp,fun i => hsame i ▸ h.spaced i⟩
    intro i _ t hm
    have hwake := h.asleep w ht i t (hsame i ▸ hm)
    exact ⟨now,by simp [SweepOut.readings],hwake.trans hn⟩

end Expiration

theorem sweeps_paced (hash : Str → Nat) (maxKeys : Nat) {es : List SweepEvent} {x : Expiration}
    {os : List SweepOut} (h : (expiration hash).Run Machine.anyStep (.create maxKeys) es x os)
    (hsteady : SteadyOuts os) (i : Fin numShards) :
    (os.filterMap (SweepOut.sweptAt i)).Pairwise (fun a b => a + sweepInterval ≤ b) := by
  have hpaced := h.invariant (fun x os => SteadyOuts os → x.Paced os)
    (fun _ => Expiration.paced_create maxKeys) ?_ hsteady
  · exact hpaced.spaced i
  · intro x os e y o ih _ hstep hsteady
    exact (ih hsteady.split.1).step hsteady (Expiration.step_cases hstep)

def sweeperRestarted : List SweepEvent :=
  [.startExpirationSweep, .test, .look, .stopExpirationSweep, .sweepShard 0 [], .sleep 7,
    .wake 500000007, .test, .join, .startExpirationSweep, .test, .look, .sweepShard 500000008 []]

theorem restarted_sweeps_paced :
    ∃ x os, (expiration (fun _ => 0)).Run Machine.anyStep (.create 48) sweeperRestarted x os ∧
      (os.filterMap (SweepOut.sweptAt (shardIndex (fun _ => 0) ['k']))).Pairwise
        (fun a b => a + sweepInterval ≤ b) ∧
      os.filterMap (SweepOut.sweptAt (shardIndex (fun _ => 0) ['k'])) = [0, 500000008] :=
  ⟨_,_,Machine.run_of_exec (by decide +kernel),
    sweeps_paced _ 48 (Machine.run_of_exec (by decide +kernel)) (by decide +kernel) _,
    by decide +kernel⟩

def SweepEvent.ofSweeper : SweepEvent → Bool
  | .test | .look | .sweepShard _ _ | .sleep _ | .wake _ => true
  | _ => false

def SweepEvent.readings : SweepEvent → List Int
  | .sweepShard now _ => [now]
  | .sleep now => [now]
  | .wake now => [now]
  | .call c => c.readings
  | _ => []

def SweepOut.isSweep : SweepOut → Bool
  | .called c _ => c.isSweep
  | _ => false

namespace Sweeper

def left : Sweeper → Nat
  | testing => 1
  | looking _ => 3
  | sweeping _ _ => 4
  | sleeping _ => 2
  | finished => 0

def sweepsLeft : Sweeper → Nat
  | sweeping _ _ => 1
  | _ => 0

end Sweeper

namespace Expiration

variable {hash : Str → Nat} {x y : Expiration} {e : SweepEvent} {os o : List SweepOut}

structure Leaving (x : Expiration) (w : Sweeper) : Prop where
  joining : x.joining = true
  stopRequested : x.stopRequested = true
  thread : x.thread = some w

theorem run_leaving {maxKeys : Nat} {es : List SweepEvent}
    (h : (expiration hash).Run Machine.anyStep (.create maxKeys) es x os)
    (hj : x.joining = true) : ∃ w, x.Leaving w := by
  refine h.invariant (fun x _ => x.joining = true → ∃ w, x.Leaving w) (by simp [create]) ?_ hj
  intro x os e y o ih _ hstep hj
  cases step_cases hstep with
  | starts hf ht => exact absurd (hf.symm.trans hj) (by decide)
  | started w hf ht => exact absurd (hf.symm.trans hj) (by decide)
  | stops w hf ht => exact ⟨w,rfl,rfl,ht⟩
  | stopped hf ht => exact absurd (hf.symm.trans hj) (by decide)
  | joins => cases hj
  | call c hc =>
    obtain ⟨w,hw⟩ := ih hj
    exact ⟨w,hw.joining,hw.stopRequested,hw.thread⟩
  | _ => exact ⟨_,hj,(ih hj).choose_spec.stopRequested,rfl⟩

theorem Leaving.step {w : Sweeper} (h : x.Leaving w) (he : e ≠ .join)
    (hstep : Step hash x e y o) :
    ∃ v, y.Leaving v ∧ v.left + e.ofSweeper.toNat = w.left ∧
      v.sweepsLeft + o.countP SweepOut.isSweep = w.sweepsLeft := by
  obtain ⟨hj,hs,hw⟩ := h
  cases hstep with
  | starts hf ht => exact absurd (hf.symm.trans hj) (by decide)
  | started v hf ht => exact absurd (hf.symm.trans hj) (by decide)
  | stops v hf ht => exact absurd (hf.symm.trans hj) (by decide)
  | stopped hf ht => exact absurd (hf.symm.trans hj) (by decide)
  | joins => exact absurd rfl he
  | call c hc =>
    exact ⟨w,⟨hj,hs,hw⟩,rfl,by simp [perform, SweepOut.isSweep, hc]⟩
  | begin ht hf => exact absurd (hf.symm.trans hs) (by decide)
  | look i rest ht hf => exact absurd (hf.symm.trans hs) (by decide)
  | finish ht _ =>
    cases hw.symm.trans ht
    exact ⟨_,⟨hj,hs,rfl⟩,rfl,rfl⟩
  | sweep now order i rest ht ho =>
    cases hw.symm.trans ht
    exact ⟨_,⟨hj,hs,rfl⟩,rfl,rfl⟩
  | sleep now rest ht =>
    cases hw.symm.trans ht
    exact ⟨_,⟨hj,hs,rfl⟩,rfl,rfl⟩
  | wake now wakeAt ht hn =>
    cases hw.symm.trans ht
    exact ⟨_,⟨hj,hs,rfl⟩,rfl,rfl⟩

theorem Leaving.run {w : Sweeper} (h : x.Leaving w) {ds : List SweepEvent} {ps : List SweepOut}
    (hrun : (expiration hash).Run Machine.anyStep x ds y ps) (hds : .join ∉ ds) :
    ∃ v, y.Leaving v ∧ v.left + ds.countP SweepEvent.ofSweeper = w.left ∧
      v.sweepsLeft + ps.countP SweepOut.isSweep = w.sweepsLeft := by
  induction hrun with
  | nil => exact ⟨w,h,rfl,rfl⟩
  | @snoc ds y ps e z o _ _ hstep ih =>
    simp only [List.mem_append, List.mem_singleton, not_or] at hds
    obtain ⟨v,hv,hleft,hsweeps⟩ := ih hds.1
    obtain ⟨u,hu,hleft',hsweeps'⟩ := hv.step (Ne.symm hds.2) (step_cases hstep)
    refine ⟨u,hu,?_,?_⟩
    · rw [Machine.countP_snoc]
      omega
    · rw [List.countP_append]
      omega

theorem Leaving.progress {w : Sweeper} (h : x.Leaving w) (hash : Str → Nat) (clock : Int) :
    ((expiration hash).step x .join).isSome = true ∨
      ∃ e, e.ofSweeper = true ∧ (∀ t ∈ e.readings, clock ≤ t) ∧
        ((expiration hash).step x e).isSome = true := by
  obtain ⟨hj,hs,hw⟩ := h
  cases w with
  | testing => exact .inr ⟨.test,rfl,by simp [SweepEvent.readings],
      by simp [expiration, test, hw, hs, Machine.quiet]⟩
  | looking rest => exact .inr ⟨.sleep clock,rfl,by simp [SweepEvent.readings],
      by simp [expiration, sleep, hw, hs]⟩
  | sweeping i rest =>
    have ho : (x.storage.shards i).Iterates (x.storage.shards i).data.keys.toList :=
      Shard.iterates_iff.mp ⟨Finset.nodup_toList _,Finset.toList_toFinset _⟩
    exact .inr ⟨.sweepShard clock (x.storage.shards i).data.keys.toList,rfl,by simp [SweepEvent.readings],
      by simp [expiration, sweepShard, hw, ho]⟩
  | sleeping wakeAt => exact .inr ⟨.wake (max clock wakeAt),rfl,by simp [SweepEvent.readings],
      by simp [expiration, wake, hw]⟩
  | finished => exact .inl (by simp [expiration, join, hw, hj, Machine.quiet])

end Expiration

theorem stop_ends_sweeping (hash : Str → Nat) (maxKeys : Nat) {es ds : List SweepEvent}
    {x y : Expiration} {os ps : List SweepOut}
    (h : (expiration hash).Run Machine.anyStep (.create maxKeys) es x os)
    (hjoining : x.joining = true) (hrun : (expiration hash).Run Machine.anyStep x ds y ps)
    (hds : .join ∉ ds) :
    ds.countP SweepEvent.ofSweeper ≤ 4 ∧ ps.countP SweepOut.isSweep ≤ 1 ∧
      ∀ clock, ((expiration hash).step y .join).isSome = true ∨
        ∃ e, e.ofSweeper = true ∧ (∀ t ∈ e.readings, clock ≤ t) ∧
          ((expiration hash).step y e).isSome = true := by
  obtain ⟨w,hw⟩ := Expiration.run_leaving h hjoining
  obtain ⟨v,hv,hleft,hsweeps⟩ := hw.run hrun hds
  have hfour : w.left ≤ 4 := by cases w <;> simp [Sweeper.left]
  have hone : w.sweepsLeft ≤ 1 := by cases w <;> simp [Sweeper.sweepsLeft]
  exact ⟨by omega,by omega,hv.progress hash⟩

def sweptOnceMore : List SweepEvent :=
  [.call (.get 3 ['k']), .sweepShard 4 [], .sleep 5, .call (.set ['k'] ['v']), .wake 500000005,
    .test]

theorem last_sweep_ends :
    ∃ x y os ps, (expiration (fun _ => 0)).Run Machine.anyStep (.create 48)
        [.startExpirationSweep, .test, .look, .stopExpirationSweep] x os ∧
      (expiration (fun _ => 0)).Run Machine.anyStep x sweptOnceMore y ps ∧
      (sweptOnceMore.countP SweepEvent.ofSweeper ≤ 4 ∧ ps.countP SweepOut.isSweep ≤ 1 ∧
        ∀ clock, ((expiration (fun _ => 0)).step y .join).isSome = true ∨
          ∃ e, e.ofSweeper = true ∧ (∀ t ∈ e.readings, clock ≤ t) ∧
            ((expiration (fun _ => 0)).step y e).isSome = true) ∧
      ((expiration (fun _ => 0)).step y .join).isSome = true :=
  ⟨_,_,_,_,Machine.run_of_exec (by decide +kernel),Machine.run_of_exec (by decide +kernel),
    stop_ends_sweeping _ 48 (Machine.run_of_exec (by decide +kernel)) (by decide +kernel)
      (Machine.run_of_exec (by decide +kernel)) (by decide +kernel),by decide +kernel⟩

end CacheForge
