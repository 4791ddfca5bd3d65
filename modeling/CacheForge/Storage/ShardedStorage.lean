import Mathlib.Data.Finmap
import CacheForge.Protocol.Text

namespace CacheForge

structure Entry where
  value : Str
  expiresAt : Option Int
  lruIter : Nat
  deriving DecidableEq, Repr

structure Node where
  address : Nat
  key : Str
  deriving DecidableEq, Repr

@[ext] structure Shard where
  data : Finmap (fun _ : Str => Entry)
  lruOrder : List Node
  nextAddress : Nat

structure Outcome (R : Type) where
  result : R
  shard : Shard
  expired : Nat
  evicted : Nat

def numShards : Nat := 16

structure ShardedStorage where
  shards : Fin numShards → Shard
  expiredKeys : Nat
  evictedKeys : Nat
  maxKeysPerShard : Nat

def deadlineAfter (now seconds : Int) : Int := wrap64 (now + wrap64 (seconds * 1000000000))

def isExpired (now : Int) (entry : Entry) : Bool :=
  match entry.expiresAt with
  | none => false
  | some d => decide (d ≤ now)

def eraseNode (address : Nat) (order : List Node) : List Node :=
  order.filter (fun n => n.address ≠ address)

def spliceFront (address : Nat) (order : List Node) : List Node :=
  match order.find? (fun n => n.address = address) with
  | none => order
  | some n => n :: eraseNode address order

namespace Shard

def empty : Shard := ⟨∅, [], 0⟩

def size (s : Shard) : Nat := s.data.keys.card

def removeEntry (key : Str) (entry : Entry) (s : Shard) : Shard :=
  { s with lruOrder := eraseNode entry.lruIter s.lruOrder, data := s.data.erase key }

def removeExpiredEntry {R : Type} (result : R) (key : Str) (entry : Entry) (s : Shard) :
    Outcome R :=
  ⟨result, s.removeEntry key entry, 1, 0⟩

def evictIfNeeded (maxKeysPerShard : Nat) (s : Shard) : Outcome Unit :=
  if s.size < maxKeysPerShard then ⟨(), s, 0, 0⟩
  else match _h : s.lruOrder.getLast? with
    | none => ⟨(), s, 0, 0⟩
    | some node =>
        let r := evictIfNeeded maxKeysPerShard
          { s with data := s.data.erase node.key, lruOrder := s.lruOrder.dropLast }
        { r with evicted := r.evicted + 1 }
termination_by s.lruOrder.length
decreasing_by
  have hne : s.lruOrder ≠ [] := by
    intro hn
    simp [hn] at _h
  have hpos := List.length_pos_iff.mpr hne
  simp only [List.length_dropLast]
  omega

def pushFront (key value : Str) (expiresAt : Option Int) (s : Shard) : Shard :=
  { data := s.data.insert key ⟨value, expiresAt, s.nextAddress⟩
    lruOrder := ⟨s.nextAddress, key⟩ :: s.lruOrder
    nextAddress := s.nextAddress + 1 }

def insertOrUpdate (maxKeysPerShard : Nat) (key value : Str) (expiresAt : Option Int)
    (s : Shard) : Outcome Unit :=
  match s.data.lookup key with
  | some entry =>
      ⟨(), { s with data := s.data.insert key ⟨value, expiresAt, entry.lruIter⟩
                    lruOrder := spliceFront entry.lruIter s.lruOrder }, 0, 0⟩
  | none =>
      let r := evictIfNeeded maxKeysPerShard s
      { r with shard := r.shard.pushFront key value expiresAt }

def access {R : Type} (now : Int) (key : Str) (absent : R) (hit : Entry → Outcome R)
    (s : Shard) : Outcome R :=
  match s.data.lookup key with
  | none => ⟨absent, s, 0, 0⟩
  | some entry =>
      if isExpired now entry then s.removeExpiredEntry absent key entry else hit entry

def moveToFront (s : Shard) (entry : Entry) : Outcome (Option Str) :=
  ⟨some entry.value, { s with lruOrder := spliceFront entry.lruIter s.lruOrder }, 0, 0⟩

def get (now : Int) (key : Str) (s : Shard) : Outcome (Option Str) :=
  s.access now key none s.moveToFront

def erase (key : Str) (s : Shard) (entry : Entry) : Outcome Bool :=
  ⟨true, s.removeEntry key entry, 0, 0⟩

def del (now : Int) (key : Str) (s : Shard) : Outcome Bool :=
  s.access now key false (s.erase key)

def setDeadline (deadline : Int) (key : Str) (s : Shard) (entry : Entry) : Outcome Bool :=
  ⟨true, { s with data := s.data.insert key ⟨entry.value, some deadline, entry.lruIter⟩ }, 0, 0⟩

def expire (now later : Int) (key : Str) (seconds : Int) (s : Shard) : Outcome Bool :=
  s.access now key false (s.setDeadline (deadlineAfter later seconds) key)

def remaining (later deadline : Int) : Int :=
  let seconds := (wrap64 (deadline - later)).tdiv 1000000000
  if seconds > 0 then seconds else 0

def report (later : Int) (s : Shard) (entry : Entry) : Outcome Int :=
  match entry.expiresAt with
  | none => ⟨-1, s, 0, 0⟩
  | some d => ⟨remaining later d, s, 0, 0⟩

def ttl (now later : Int) (key : Str) (s : Shard) : Outcome Int :=
  s.access now key (-2) (s.report later)

def maxScanPerSweep : Nat := 100

def sweepEntry (now : Int) (o : Outcome Unit) (key : Str) : Outcome Unit :=
  match o.shard.data.lookup key with
  | none => o
  | some entry =>
      if isExpired now entry then
        { o with shard := o.shard.removeEntry key entry, expired := o.expired + 1 }
      else o

def sweepShard (now : Int) (order : List Str) (s : Shard) : Outcome Unit :=
  (order.take maxScanPerSweep).foldl (sweepEntry now) ⟨(), s, 0, 0⟩

end Shard

def shardIndex (hash : Str → Nat) (key : Str) : Fin numShards :=
  ⟨hash key &&& (numShards - 1), Nat.lt_succ_of_le Nat.and_le_right⟩

namespace ShardedStorage

def create (maxKeys : Nat) : ShardedStorage :=
  ⟨fun _ => Shard.empty, 0, 0, max 1 (maxKeys / numShards)⟩

def locked {R : Type} (i : Fin numShards) (op : Shard → Outcome R) (st : ShardedStorage) :
    R × ShardedStorage :=
  let o := op (st.shards i)
  (o.result, { st with
    shards := Function.update st.shards i o.shard
    expiredKeys := st.expiredKeys + o.expired
    evictedKeys := st.evictedKeys + o.evicted })

section

variable (hash : Str → Nat)

def onShard {R : Type} (key : Str) (op : Shard → Outcome R) (st : ShardedStorage) :
    R × ShardedStorage := st.locked (shardIndex hash key) op

def set (key value : Str) (st : ShardedStorage) : ShardedStorage :=
  (st.onShard hash key (Shard.insertOrUpdate st.maxKeysPerShard key value none)).2

def setWithTTL (now : Int) (key value : Str) (seconds : Int) (st : ShardedStorage) :
    ShardedStorage :=
  (st.onShard hash key (Shard.insertOrUpdate st.maxKeysPerShard key value
    (if seconds < 0 then none else some (deadlineAfter now seconds)))).2

def get (now : Int) (key : Str) (st : ShardedStorage) : Option Str × ShardedStorage :=
  st.onShard hash key (Shard.get now key)

def del (now : Int) (key : Str) (st : ShardedStorage) : Bool × ShardedStorage :=
  st.onShard hash key (Shard.del now key)

def expire (now later : Int) (key : Str) (seconds : Int) (st : ShardedStorage) :
    Bool × ShardedStorage :=
  if seconds < 0 then (false, st)
  else st.onShard hash key (Shard.expire now later key seconds)

def ttl (now later : Int) (key : Str) (st : ShardedStorage) : Int × ShardedStorage :=
  st.onShard hash key (Shard.ttl now later key)

end

def sweepShard (now : Int) (i : Fin numShards) (order : List Str) (st : ShardedStorage) :
    ShardedStorage := (st.locked i (Shard.sweepShard now order)).2

def size (st : ShardedStorage) : Nat :=
  ((List.finRange numShards).map (fun i => (st.shards i).size)).sum

end ShardedStorage

end CacheForge
