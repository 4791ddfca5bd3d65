import CacheForge.Library.Machine
import CacheForge.Storage.Answers
import CacheForge.Storage.Sweeping

namespace CacheForge

def sweepInterval : Int := 500000000

inductive Sweeper where
  | testing
  | looking (rest : List (Fin numShards))
  | sweeping (shard : Fin numShards) (rest : List (Fin numShards))
  | sleeping (wakeAt : Int)
  | finished
  deriving DecidableEq, Repr

structure Expiration where
  storage : ShardedStorage
  thread : Option Sweeper
  stopRequested : Bool
  joining : Bool

inductive SweepEvent where
  | startExpirationSweep
  | stopExpirationSweep
  | join
  | call (c : Call)
  | test
  | look
  | sweepShard (now : Int) (order : List Str)
  | sleep (now : Int)
  | wake (now : Int)
  deriving DecidableEq, Repr

inductive SweepOut where
  | called (c : Call) (reply : Reply)
  | slept (now : Int)
  | woke (now : Int)
  deriving DecidableEq, Repr

theorem Shard.iterates_iff {s : Shard} {order : List Str} :
    order.Nodup ∧ order.toFinset = s.data.keys ↔ s.Iterates order := by
  refine and_congr_right fun _ => ?_
  simp [Finset.ext_iff, Finmap.mem_keys]

instance (s : Shard) (order : List Str) : Decidable (s.Iterates order) :=
  decidable_of_iff _ Shard.iterates_iff

namespace Expiration

def create (maxKeys : Nat) : Expiration := ⟨.create maxKeys, none, false, false⟩

def startExpirationSweep (x : Expiration) : Option Expiration :=
  if x.joining then none
  else match x.thread with
    | none => some { x with thread := some .testing, stopRequested := false }
    | some _ => some x

def stopExpirationSweep (x : Expiration) : Option Expiration :=
  if x.joining then none
  else match x.thread with
    | none => some x
    | some _ => some { x with stopRequested := true, joining := true }

def join (x : Expiration) : Option Expiration :=
  match x.joining, x.thread with
  | true, some .finished => some { x with thread := none, joining := false }
  | _, _ => none

def test (x : Expiration) : Option Expiration :=
  match x.thread, x.stopRequested with
  | some .testing, true => some { x with thread := some .finished }
  | some .testing, false => some { x with thread := some (.looking (List.finRange numShards)) }
  | _, _ => none

def look (x : Expiration) : Option Expiration :=
  match x.thread with
  | some (.looking (i :: rest)) =>
      if x.stopRequested then none else some { x with thread := some (.sweeping i rest) }
  | _ => none

def sleep (now : Int) (x : Expiration) : Option (Expiration × List SweepOut) :=
  match x.thread with
  | some (.looking rest) =>
      if rest = [] ∨ x.stopRequested = true then
        some ({ x with thread := some (.sleeping (now + sweepInterval)) }, [.slept now])
      else none
  | _ => none

def wake (now : Int) (x : Expiration) : Option (Expiration × List SweepOut) :=
  match x.thread with
  | some (.sleeping wakeAt) =>
      if wakeAt ≤ now then some ({ x with thread := some .testing }, [.woke now]) else none
  | _ => none

variable (hash : Str → Nat)

def perform (c : Call) (x : Expiration) : Expiration × List SweepOut :=
  let r := x.storage.call hash c
  ({ x with storage := r.2 }, [.called c r.1])

-- `sweepShard` is private: other threads make the other calls.
def call (c : Call) (x : Expiration) : Option (Expiration × List SweepOut) :=
  if c.isSweep then none else some (x.perform hash c)

def sweepShard (now : Int) (order : List Str) (x : Expiration) :
    Option (Expiration × List SweepOut) :=
  match x.thread with
  | some (.sweeping i rest) =>
      if (x.storage.shards i).Iterates order then
        some ({ x with thread := some (.looking rest) }.perform hash (.sweepShard now i order))
      else none
  | _ => none

end Expiration

def expiration (hash : Str → Nat) : Machine Expiration SweepEvent SweepOut where
  step x e :=
    match e with
    | .startExpirationSweep => Machine.quiet x.startExpirationSweep
    | .stopExpirationSweep => Machine.quiet x.stopExpirationSweep
    | .join => Machine.quiet x.join
    | .call c => x.call hash c
    | .test => Machine.quiet x.test
    | .look => Machine.quiet x.look
    | .sweepShard now order => x.sweepShard hash now order
    | .sleep now => x.sleep now
    | .wake now => x.wake now

namespace Expiration

variable (hash : Str → Nat)

inductive Step (x : Expiration) : SweepEvent → Expiration → List SweepOut → Prop
  | starts (hj : x.joining = false) (ht : x.thread = none) :
      Step x .startExpirationSweep { x with thread := some .testing, stopRequested := false } []
  | started (w : Sweeper) (hj : x.joining = false) (ht : x.thread = some w) :
      Step x .startExpirationSweep x []
  | stops (w : Sweeper) (hj : x.joining = false) (ht : x.thread = some w) :
      Step x .stopExpirationSweep { x with stopRequested := true, joining := true } []
  | stopped (hj : x.joining = false) (ht : x.thread = none) : Step x .stopExpirationSweep x []
  | joins (hj : x.joining = true) (ht : x.thread = some .finished) :
      Step x .join { x with thread := none, joining := false } []
  | call (c : Call) (hc : c.isSweep = false) :
      Step x (.call c) (x.perform hash c).1 (x.perform hash c).2
  | finish (ht : x.thread = some .testing) (hs : x.stopRequested = true) :
      Step x .test { x with thread := some .finished } []
  | begin (ht : x.thread = some .testing) (hs : x.stopRequested = false) :
      Step x .test { x with thread := some (.looking (List.finRange numShards)) } []
  | look (i : Fin numShards) (rest : List (Fin numShards))
      (ht : x.thread = some (.looking (i :: rest))) (hs : x.stopRequested = false) :
      Step x .look { x with thread := some (.sweeping i rest) } []
  | sweep (now : Int) (order : List Str) (i : Fin numShards) (rest : List (Fin numShards))
      (ht : x.thread = some (.sweeping i rest)) (ho : (x.storage.shards i).Iterates order) :
      Step x (.sweepShard now order)
        ({ x with thread := some (.looking rest) }.perform hash (.sweepShard now i order)).1
        ({ x with thread := some (.looking rest) }.perform hash (.sweepShard now i order)).2
  | sleep (now : Int) (rest : List (Fin numShards)) (ht : x.thread = some (.looking rest)) :
      Step x (.sleep now) { x with thread := some (.sleeping (now + sweepInterval)) } [.slept now]
  | wake (now wakeAt : Int) (ht : x.thread = some (.sleeping wakeAt)) (hn : wakeAt ≤ now) :
      Step x (.wake now) { x with thread := some .testing } [.woke now]

variable {hash} {x y : Expiration} {e : SweepEvent} {o : List SweepOut}

theorem step_cases (h : (expiration hash).step x e = some (y, o)) : Step hash x e y o := by
  cases e with
  | startExpirationSweep =>
    obtain ⟨hx,rfl⟩ := Machine.quiet_some h
    unfold startExpirationSweep at hx
    split at hx
    · cases hx
    · rename_i hj
      split at hx <;> cases hx
      · exact .starts (by simpa using hj) ‹_›
      · exact .started _ (by simpa using hj) ‹_›
  | stopExpirationSweep =>
    obtain ⟨hx,rfl⟩ := Machine.quiet_some h
    unfold stopExpirationSweep at hx
    split at hx
    · cases hx
    · rename_i hj
      split at hx <;> cases hx
      · exact .stopped (by simpa using hj) ‹_›
      · exact .stops _ (by simpa using hj) ‹_›
  | join =>
    obtain ⟨hx,rfl⟩ := Machine.quiet_some h
    unfold join at hx
    split at hx <;> cases hx
    exact .joins ‹_› ‹_›
  | call c =>
    simp only [expiration, call] at h
    split at h <;> cases h
    exact .call c (Bool.eq_false_of_not_eq_true ‹_›)
  | test =>
    obtain ⟨hx,rfl⟩ := Machine.quiet_some h
    unfold test at hx
    split at hx <;> cases hx
    · exact .finish ‹_› ‹_›
    · exact .begin ‹_› ‹_›
  | look =>
    obtain ⟨hx,rfl⟩ := Machine.quiet_some h
    unfold look at hx
    split at hx
    · split at hx <;> cases hx
      exact .look _ _ ‹_› (Bool.eq_false_of_not_eq_true ‹_›)
    · cases hx
  | sweepShard now order =>
    simp only [expiration, sweepShard] at h
    split at h
    · split at h <;> cases h
      exact .sweep now order _ _ ‹_› ‹_›
    · cases h
  | sleep now =>
    simp only [expiration, sleep] at h
    split at h
    · split at h <;> cases h
      exact .sleep now _ ‹_›
    · cases h
  | wake now =>
    simp only [expiration, wake] at h
    split at h
    · split at h <;> cases h
      exact .wake now _ ‹_› ‹_›
    · cases h

end Expiration

end CacheForge
