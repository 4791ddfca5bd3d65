import CacheForge.Storage.AofWriter
import CacheForge.Storage.ShardedStorage

namespace CacheForge

def pongResponse : Str := "+PONG\n".toList
def okResponse : Str := "+OK\n".toList
def valueResponse (value : Str) : Str := ['$'] ++ value ++ ['\n']
def nilResponse : Str := "$nil\n".toList
def integerResponse (value : Int) : Str := [':'] ++ stdToString (wrap32 value) ++ ['\n']
def errorResponse (message : String) : Str := "-ERR ".toList ++ message.toList ++ ['\n']

structure Readings where
  now : Int
  later : Int
  deriving DecidableEq, Repr

structure Dispatcher where
  storage : ShardedStorage
  aofWriter : Option AOFWriter
  totalRequests : Nat
  totalReads : Nat
  totalWrites : Nat
  cacheHits : Nat
  cacheMisses : Nat
  startTime : Int

namespace Dispatcher

def create (storage : ShardedStorage) (aofWriter : Option AOFWriter) (startTime : Int) :
    Dispatcher := ⟨storage, aofWriter, 0, 0, 0, 0, 0, startTime⟩

def fresh (maxKeys : Nat) (startTime : Int) : Dispatcher :=
  create (ShardedStorage.create maxKeys) (some AOFWriter.running) startTime

def logged (d : Dispatcher) : List Str :=
  match d.aofWriter with
  | none => []
  | some w => w.queue

def log (f : AOFWriter → AOFWriter) (d : Dispatcher) : Dispatcher :=
  { d with aofWriter := d.aofWriter.map f }

def statsText (now : Int) (d : Dispatcher) : Str :=
  "total_requests:".toList ++ stdToString d.totalRequests ++
  ",total_reads:".toList ++ stdToString d.totalReads ++
  ",total_writes:".toList ++ stdToString d.totalWrites ++
  ",cache_hits:".toList ++ stdToString d.cacheHits ++
  ",cache_misses:".toList ++ stdToString d.cacheMisses ++
  ",expired_keys:".toList ++ stdToString d.storage.expiredKeys ++
  ",evicted_keys:".toList ++ stdToString d.storage.evictedKeys ++
  ",current_keys:".toList ++ stdToString d.storage.size ++
  ",uptime_seconds:".toList ++ stdToString ((wrap64 (now - d.startTime)).tdiv 1000000000)

variable (hash : Str → Nat)

def dispatchSet (d : Dispatcher) : List Str → Str × Dispatcher
  | key :: value :: _ =>
      let d := { d with totalWrites := d.totalWrites + 1 }
      let d := { d with storage := d.storage.set hash key value }
      (okResponse, d.log (AOFWriter.logSet key value))
  | _ => (errorResponse "wrong number of arguments for 'set' command", d)

def dispatchGet (r : Readings) (d : Dispatcher) : List Str → Str × Dispatcher
  | key :: _ =>
      let d := { d with totalReads := d.totalReads + 1 }
      let (value, storage) := d.storage.get hash r.now key
      let d := { d with storage := storage }
      match value with
      | some v => (valueResponse v, { d with cacheHits := d.cacheHits + 1 })
      | none => (nilResponse, { d with cacheMisses := d.cacheMisses + 1 })
  | [] => (errorResponse "wrong number of arguments for 'get' command", d)

def dispatchDel (r : Readings) (d : Dispatcher) : List Str → Str × Dispatcher
  | key :: _ =>
      let d := { d with totalWrites := d.totalWrites + 1 }
      let (deleted, storage) := d.storage.del hash r.now key
      let d := { d with storage := storage }
      (integerResponse (if deleted then 1 else 0),
        if deleted then d.log (AOFWriter.logDel key) else d)
  | [] => (errorResponse "wrong number of arguments for 'del' command", d)

def dispatchExpire (r : Readings) (d : Dispatcher) : List Str → Str × Dispatcher
  | key :: number :: _ =>
      match stoll number with
      | none => (errorResponse "value is not an integer or out of range", d)
      | some seconds =>
          let (success, storage) := d.storage.expire hash r.now r.later key seconds
          let d := { d with storage := storage }
          (integerResponse (if success then 1 else 0),
            if success then d.log (AOFWriter.logExpire key seconds) else d)
  | _ => (errorResponse "wrong number of arguments for 'expire' command", d)

def dispatchTtl (r : Readings) (d : Dispatcher) : List Str → Str × Dispatcher
  | key :: _ =>
      let (seconds, storage) := d.storage.ttl hash r.now r.later key
      (integerResponse seconds, { d with storage := storage })
  | [] => (errorResponse "wrong number of arguments for 'ttl' command", d)

def dispatch (r : Readings) (cmd : Command) (d : Dispatcher) : Str × Dispatcher :=
  let d := { d with totalRequests := d.totalRequests + 1 }
  match cmd.type with
  | .ping => (pongResponse, d)
  | .set => d.dispatchSet hash cmd.args
  | .get => d.dispatchGet hash r cmd.args
  | .del => d.dispatchDel hash r cmd.args
  | .expire => d.dispatchExpire hash r cmd.args
  | .ttl => d.dispatchTtl hash r cmd.args
  | .stats => (valueResponse (d.statsText r.now), d)
  | .unknown => (errorResponse "unknown command", d)

end Dispatcher

end CacheForge
