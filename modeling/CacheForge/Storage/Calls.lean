import CacheForge.Library.Transducer
import CacheForge.Storage.Lookup

namespace CacheForge

inductive Call where
  | set (key value : Str)
  | setWithTTL (now : Int) (key value : Str) (seconds : Int)
  | get (now : Int) (key : Str)
  | del (now : Int) (key : Str)
  | expire (now later : Int) (key : Str) (seconds : Int)
  | ttl (now later : Int) (key : Str)
  | size
  | sweepShard (now : Int) (shard : Fin numShards) (order : List Str)
  deriving DecidableEq, Repr

def Call.isSweep : Call → Bool
  | .sweepShard _ _ _ => true
  | _ => false

inductive Reply where
  | done
  | value (v : Option Str)
  | flag (b : Bool)
  | seconds (n : Int)
  | count (n : Nat)
  deriving DecidableEq, Repr

namespace ShardedStorage

variable (hash : Str → Nat)

def call (st : ShardedStorage) : Call → Reply × ShardedStorage
  | .set key value => (.done, st.set hash key value)
  | .setWithTTL now key value seconds => (.done, st.setWithTTL hash now key value seconds)
  | .get now key => (st.get hash now key).map .value id
  | .del now key => (st.del hash now key).map .flag id
  | .expire now later key seconds => (st.expire hash now later key seconds).map .flag id
  | .ttl now later key => (st.ttl hash now later key).map .seconds id
  | .size => (.count st.size, st)
  | .sweepShard now i order => (.done, st.sweepShard now i order)

def calls (cs : List Call) (st : ShardedStorage) : List Reply × ShardedStorage :=
  Transducer.run (call hash) cs st

end ShardedStorage

end CacheForge
