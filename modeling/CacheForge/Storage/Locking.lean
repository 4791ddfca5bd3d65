import CacheForge.Storage.Conservation
import CacheForge.Storage.Critical
import CacheForge.Storage.WellFormed

namespace CacheForge

abbrev StorageNotice := Sections.Notice Demand Reply

abbrev LockedStorage := Sections.State Invocation (Fin numShards) Body Int Shard (Nat × Nat)

def LockedStorage.create (clock : Int) (threads : Nat) : LockedStorage :=
  .start (fun _ => Shard.empty) 0 clock threads

def lockedStorage (hash : Str → Nat) (maxKeys : Nat) :
    Machine LockedStorage (Sections.Event Demand Int) StorageNotice :=
  (criticalSections hash (max 1 (maxKeys / numShards))).locked

structure SharedStorage where
  storage : ShardedStorage
  clock : Int
  threads : List (Option (Invocation × Int))

def SharedStorage.create (maxKeys : Nat) (clock : Int) (threads : Nat) : SharedStorage :=
  ⟨.create maxKeys, clock, List.replicate threads none⟩

inductive SharedEvent where
  | tick (now : Int)
  | call (t : Nat) (demand : Demand)
  | perform (t : Nat) (now later : Int)
  | visit (t : Nat)
  | ret (t : Nat)
  deriving DecidableEq, Repr

namespace SharedStorage

def step (hash : Str → Nat) (s : SharedStorage) :
    SharedEvent → Option (SharedStorage × List StorageNotice)
  | .tick now => if s.clock ≤ now then some ({ s with clock := now }, []) else none
  | .call t demand =>
      match s.threads[t]? with
      | some none =>
          some ({ s with threads := s.threads.set t (some (demand.start, s.clock)) },
            [.called t demand])
      | _ => none
  | .perform t now later =>
      match s.threads[t]? with
      | some (some (.entering op, since)) =>
          if since ≤ now ∧ now ≤ later ∧ later ≤ s.clock then
            let (reply, storage) := s.storage.call hash (op.call now later)
            some ({ s with
              storage := storage
              threads := s.threads.set t (some (.finished reply, since)) }, [])
          else none
      | _ => none
  | .visit t =>
      match s.threads[t]? with
      | some (some (.sizing (i :: rest) total, since)) =>
          some ({ s with
            threads := s.threads.set t
              (some (.sizing rest (total + (s.storage.shards i).size), since)) }, [])
      | _ => none
  | .ret t =>
      match s.threads[t]? with
      | some (some (.finished reply, _)) =>
          some ({ s with threads := s.threads.set t none }, [.returned t reply])
      | some (some (.sizing [] total, _)) =>
          some ({ s with threads := s.threads.set t none }, [.returned t (.count total)])
      | _ => none

end SharedStorage

def sharedStorage (hash : Str → Nat) : Machine SharedStorage SharedEvent StorageNotice :=
  ⟨SharedStorage.step hash⟩

section

variable {hash : Str → Nat}

abbrev SectionedStorage := Sections.Atomic Invocation (Fin numShards) Int Shard (Nat × Nat)

def SectionedStorage.shared (cap : Nat) (a : SectionedStorage) : SharedStorage :=
  ⟨⟨a.resources, a.total.1, a.total.2, cap⟩, a.clock, a.threads⟩

theorem Invocation.resume_some {k k' : Invocation} {b : Body} (h : k.resume b = some k') :
    ∃ reply, b = .finished reply ∧ k' = k.leave reply := by
  cases b with
  | finished reply =>
    cases h
    exact ⟨reply,rfl,rfl⟩
  | _ => cases h

theorem perform_shared {cap : Nat} {a b : SectionedStorage} {t : Nat} {xs : List Int}
    {os : List StorageNotice} (htime : Sections.inTime a (.perform (C := Demand) t xs))
    (h : (criticalSections hash cap).atomic.step a (.perform t xs) = some (b, os)) :
    ∃ e, (sharedStorage hash).step (a.shared cap) e = some (b.shared cap, os) := by
  simp only [Sections.atomic, Sections.perform?] at h
  split at h
  · rename_i k since ht
    split at h
    · cases h
    · rename_i i l hnext
      split at h
      · cases h
      · rename_i l' r d hexec
        split at h
        · cases h
        · rename_i k' hdone
          cases h
          obtain ⟨reply,rfl,rfl⟩ := Invocation.resume_some hdone
          obtain ⟨now,later,hsince,hle,hlater,hout⟩ :=
            Body.section_outcome hexec (htime k since ht)
          cases k with
          | finished reply => cases hnext
          | entering op =>
            refine ⟨.perform t now later,?_⟩
            have hcall : (a.shared cap).storage.call hash (op.call now later) =
                (reply, ⟨Function.update a.resources i r, a.total.1 + d.1, a.total.2 + d.2,
                  cap⟩) := by
              rw [ShardedStorage.call_entered hnext now later]
              simp only [ShardedStorage.locked, SectionedStorage.shared, hout]
            have hsame : (a.shared cap).threads[t]? = some (some (.entering op, since)) := ht
            simp only [sharedStorage, SharedStorage.step, hsame, hcall]
            rw [if_pos ⟨hsince,hle,hlater⟩]
            rfl
          | sizing rest total =>
            cases rest with
            | nil => cases hnext
            | cons j rest =>
              cases hnext
              obtain ⟨d₁,d₂⟩ := d
              cases hout
              refine ⟨.visit t,?_⟩
              simp [sharedStorage, SharedStorage.step, SectionedStorage.shared, ht,
                Invocation.leave]
  · cases h

theorem ret_shared {cap : Nat} {a b : SectionedStorage} {t : Nat} {os : List StorageNotice}
    (hpast : a.Past) (h : (criticalSections hash cap).atomic.step a (.ret t) = some (b, os)) :
    ∃ es, (sharedStorage hash).Run Machine.anyStep (a.shared cap) es (b.shared cap) os := by
  simp only [Sections.atomic, Sections.perform?] at h
  split at h
  · rename_i k since ht
    split at h
    · cases h
    · rename_i reply hnext
      cases h
      cases k with
      | finished reply' =>
        cases hnext
        exact ⟨[.ret t],.single trivial
          (by simp [sharedStorage, SharedStorage.step, SectionedStorage.shared, ht])⟩
      | sizing rest total =>
        cases rest with
        | nil =>
          cases hnext
          exact ⟨[.ret t],.single trivial
            (by simp [sharedStorage, SharedStorage.step, SectionedStorage.shared, ht])⟩
        | cons i rest => cases hnext
      | entering op =>
        have hsince : since ≤ a.clock := hpast _ (List.mem_of_getElem? ht) (.entering op, since) rfl
        have hcall := ShardedStorage.call_declined hnext a.clock a.clock (a.shared cap).storage
        have hlen := (List.getElem?_eq_some_iff.mp ht).1
        refine ⟨_,(Machine.Run.single (e := .perform t a.clock a.clock) (o := [])
          (t := { a.shared cap with
            threads := a.threads.set t (some (.finished reply, since)) }) trivial ?_).append
            (.single (e := .ret t) trivial ?_)⟩
        · simp only [SectionedStorage.shared] at hcall
          simp [sharedStorage, SharedStorage.step, SectionedStorage.shared, ht, hsince, hcall]
        · simp [sharedStorage, SharedStorage.step, SectionedStorage.shared, hlen]
  · cases h

theorem shared_step {cap : Nat} {a b : SectionedStorage} {e : Sections.Action Demand Int}
    {os : List StorageNotice} (hpast : a.Past) (htime : Sections.inTime a e)
    (h : (criticalSections hash cap).atomic.step a e = some (b, os)) :
    ∃ es, (sharedStorage hash).Run Machine.anyStep (a.shared cap) es (b.shared cap) os := by
  cases e with
  | tick now =>
    simp only [Sections.atomic, Sections.perform?, Option.ite_none_right_eq_some,
      Option.some.injEq, Prod.mk.injEq] at h
    obtain ⟨hle,rfl,rfl⟩ := h
    exact ⟨[.tick now],.single trivial
      (by simp [sharedStorage, SharedStorage.step, SectionedStorage.shared, hle])⟩
  | call t demand =>
    simp only [Sections.atomic, Sections.perform?] at h
    split at h
    · rename_i ht
      cases h
      exact ⟨[.call t demand],.single trivial
        (by simp [sharedStorage, SharedStorage.step, SectionedStorage.shared, ht]; rfl)⟩
    · cases h
  | perform t xs =>
    obtain ⟨e,he⟩ := perform_shared htime h
    exact ⟨[e],.single trivial he⟩
  | ret t => exact ret_shared hpast h

def SectionedStorage.create (clock : Int) (threads : Nat) : SectionedStorage :=
  .start (fun _ => Shard.empty) 0 clock threads

theorem sectioned_refines_shared {maxKeys threads : Nat} {clock : Int} {a : SectionedStorage}
    {es : List (Sections.Action Demand Int)} {os : List StorageNotice}
    (h : (criticalSections hash (max 1 (maxKeys / numShards))).atomic.Run Sections.inTime
      (SectionedStorage.create clock threads) es a os) :
    ∃ es', (sharedStorage hash).Run Machine.anyStep (.create maxKeys clock threads) es'
      (a.shared (max 1 (maxKeys / numShards))) os := by
  have hrun := h.simulation (N := sharedStorage hash) (Q := Machine.anyStep)
    (fun a c => c = SectionedStorage.shared (max 1 (maxKeys / numShards)) a ∧ a.Past)
    (show _ = _ ∧ _ from ⟨(rfl : SharedStorage.create maxKeys clock threads = _),?_⟩) (by
      rintro a c e b o ⟨rfl,hp⟩ htime hstep
      obtain ⟨es',hr⟩ := shared_step hp htime hstep
      exact ⟨es',_,hr,rfl,Sections.past_step hp hstep⟩)
  · obtain ⟨es',c,hrun,rfl,-⟩ := hrun
    exact ⟨es',hrun⟩
  · intro p hp q hq
    rw [List.eq_of_mem_replicate hp] at hq
    cases hq

theorem locked_calls_linearize (hash : Str → Nat) (maxKeys : Nat) (clock : Int) (threads : Nat)
    {es : List (Sections.Event Demand Int)} {s : LockedStorage} {os : List StorageNotice}
    (h : (lockedStorage hash maxKeys).Run Machine.anyStep (.create clock threads) es s os) :
    ∃ es' c, (sharedStorage hash).Run Machine.anyStep (.create maxKeys clock threads) es' c os ∧
      (∀ i, s.owner i = none → s.resources i = c.storage.shards i) ∧
      ((∀ i, s.owner i = none) →
        s.total = (c.storage.expiredKeys, c.storage.evictedKeys)) := by
  obtain ⟨ds,a,hatomic,debts,href⟩ := Sections.locked_refines_atomic h
  obtain ⟨es',hrun⟩ := sectioned_refines_shared hatomic
  exact ⟨es',_,hrun,href.free,href.total_idle⟩

def setThenGet : List (Sections.Event Demand Int) :=
  [.call 0 (.run (.set ['k'] ['v'])), .call 1 (.run (.get ['k'])), .acquire 0, .work 0, .tick 1,
    .work 0, .work 0, .work 0, .release 0, .acquire 1, .ret 0, .work 1, .work 1, .work 1, .work 1,
    .release 1, .ret 1]

theorem set_then_get_linearizes :
    ∃ s os, (lockedStorage (fun _ => 0) 16).Run Machine.anyStep (.create 0 2) setThenGet s os ∧
      (∃ es' c, (sharedStorage (fun _ => 0)).Run Machine.anyStep (.create 16 0 2) es' c os ∧
        (∀ i, s.owner i = none → s.resources i = c.storage.shards i) ∧
        ((∀ i, s.owner i = none) →
          s.total = (c.storage.expiredKeys, c.storage.evictedKeys))) ∧
      os = [.called 0 (.run (.set ['k'] ['v'])), .called 1 (.run (.get ['k'])), .returned 0 .done,
        .returned 1 (.value (some ['v']))] :=
  ⟨_,_,Machine.run_of_exec (by decide +kernel),
    locked_calls_linearize _ 16 0 2 (Machine.run_of_exec (by decide +kernel)),by decide +kernel⟩

inductive SharedMoves (hash : Str → Nat) (s : SharedStorage) : SharedEvent → SharedStorage → Prop
  | tick {now : Int} : SharedMoves hash s (.tick now) { s with clock := now }
  | call {t : Nat} {demand : Demand} (ht : s.threads[t]? = some none) :
      SharedMoves hash s (.call t demand)
        { s with threads := s.threads.set t (some (demand.start, s.clock)) }
  | perform {t : Nat} {now later since : Int} {op : Operation}
      (ht : s.threads[t]? = some (some (.entering op, since))) :
      SharedMoves hash s (.perform t now later)
        { s with
          storage := (s.storage.call hash (op.call now later)).2
          threads :=
            s.threads.set t (some (.finished (s.storage.call hash (op.call now later)).1, since)) }
  | visit {t : Nat} {i : Fin numShards} {rest : List (Fin numShards)} {total : Nat} {since : Int}
      (ht : s.threads[t]? = some (some (.sizing (i :: rest) total, since))) :
      SharedMoves hash s (.visit t)
        { s with
          threads :=
            s.threads.set t (some (.sizing rest (total + (s.storage.shards i).size), since)) }
  | ret {t : Nat} {k : Invocation} {since : Int} (ht : s.threads[t]? = some (some (k, since))) :
      SharedMoves hash s (.ret t) { s with threads := s.threads.set t none }

theorem shared_cases {s s' : SharedStorage} {e : SharedEvent} {os : List StorageNotice}
    (h : (sharedStorage hash).step s e = some (s', os)) : SharedMoves hash s e s' := by
  cases e with
  | tick now =>
    simp only [sharedStorage, SharedStorage.step, Option.ite_none_right_eq_some,
      Option.some.injEq, Prod.mk.injEq] at h
    obtain ⟨-,rfl,-⟩ := h
    exact .tick
  | call t demand =>
    simp only [sharedStorage, SharedStorage.step] at h
    split at h
    · rename_i ht
      cases h
      exact .call ht
    · cases h
  | perform t now later =>
    simp only [sharedStorage, SharedStorage.step] at h
    split at h
    · rename_i op since ht
      simp only [Option.ite_none_right_eq_some, Option.some.injEq, Prod.mk.injEq] at h
      obtain ⟨-,rfl,-⟩ := h
      exact .perform ht
    · cases h
  | visit t =>
    simp only [sharedStorage, SharedStorage.step] at h
    split at h
    · rename_i ht
      cases h
      exact .visit ht
    · cases h
  | ret t =>
    simp only [sharedStorage, SharedStorage.step] at h
    split at h
    · rename_i ht
      cases h
      exact .ret ht
    · rename_i ht
      cases h
      exact .ret ht
    · cases h

theorem shared_calls {P : SharedStorage → SharedEvent → Prop} {a c : SharedStorage}
    {es : List SharedEvent} {os : List StorageNotice} (h : (sharedStorage hash).Run P a es c os) :
    ∃ cs, c.storage = (a.storage.calls hash cs).2 := by
  refine h.invariant (fun c _ => ∃ cs, c.storage = (a.storage.calls hash cs).2) ⟨[],rfl⟩ ?_
  rintro s os e t o ⟨cs,hcs⟩ - hstep
  cases shared_cases hstep with
  | @perform _ now later _ op _ =>
    refine ⟨cs ++ [op.call now later],?_⟩
    rw [ShardedStorage.calls, Transducer.run_snoc]
    dsimp only
    rw [hcs]
    rfl
  | _ => exact ⟨cs,hcs⟩

theorem sectioned_well_formed {maxKeys threads : Nat} {clock : Int} {a : SectionedStorage}
    {es : List (Sections.Action Demand Int)} {os : List StorageNotice}
    (h : (criticalSections hash (max 1 (maxKeys / numShards))).atomic.Run Sections.inTime
      (SectionedStorage.create clock threads) es a os) (i : Fin numShards) :
    (a.resources i).WellFormed hash i (max 1 (maxKeys / numShards)) := by
  obtain ⟨es',hrun⟩ := sectioned_refines_shared h
  obtain ⟨cs,hcs⟩ := shared_calls hrun
  have hwf := ((Simulates.create hash maxKeys).calls cs).2.wellFormed i
  rw [show (ShardedStorage.create maxKeys) =
    (SharedStorage.create maxKeys clock threads).storage from rfl, ← hcs] at hwf
  exact hwf

theorem unlocked_shards_well_formed (hash : Str → Nat) (maxKeys : Nat) (clock : Int)
    (threads : Nat) {es : List (Sections.Event Demand Int)} {s : LockedStorage}
    {os : List StorageNotice}
    (h : (lockedStorage hash maxKeys).Run Machine.anyStep (.create clock threads) es s os) :
    (∀ i, s.owner i = none → (s.resources i).WellFormed hash i (max 1 (maxKeys / numShards))) ∧
      (∀ i t, s.owner i = some t ↔ ∃ k b, s.threads[t]? = some (.inside i k b)) := by
  obtain ⟨ds,a,hatomic,debts,href⟩ := Sections.locked_refines_atomic h
  refine ⟨fun i hi => href.free i hi ▸ sectioned_well_formed hatomic i,
    fun i t => ⟨href.held i t,?_⟩⟩
  rintro ⟨k,b,ht⟩
  exact (href.inside ht).1

theorem set_under_way_well_formed :
    ∃ s os, (lockedStorage (fun _ => 0) 16).Run Machine.anyStep (.create 0 2)
        (setThenGet.take 7) s os ∧
      ((∀ i, s.owner i = none → (s.resources i).WellFormed (fun _ => 0) i 1) ∧
        ∀ i t, s.owner i = some t ↔ ∃ k b, s.threads[t]? = some (.inside i k b)) ∧
      s.owner (shardIndex (fun _ => 0) ['k']) = some 0 ∧
      (s.resources (shardIndex (fun _ => 0) ['k'])).lruOrder = [⟨0, ['k']⟩] ∧
      (s.resources (shardIndex (fun _ => 0) ['k'])).size = 0 :=
  ⟨_,_,Machine.run_of_exec (by decide +kernel),
    unlocked_shards_well_formed _ 16 0 2 (Machine.run_of_exec (by decide +kernel)),
    by decide +kernel,by decide +kernel,by decide +kernel⟩

end

end CacheForge
