import CacheForge.Library.Machine
import CacheForge.Protocol.Dispatcher

namespace CacheForge

inductive Counter where
  | totalRequests | totalReads | totalWrites | cacheHits | cacheMisses | expiredKeys | evictedKeys
  deriving DecidableEq, Repr

namespace Counter

def all : List Counter :=
  [totalRequests, totalReads, totalWrites, cacheHits, cacheMisses, expiredKeys, evictedKeys]

def label : Counter → String
  | totalRequests => "total_requests:"
  | totalReads => ",total_reads:"
  | totalWrites => ",total_writes:"
  | cacheHits => ",cache_hits:"
  | cacheMisses => ",cache_misses:"
  | expiredKeys => ",expired_keys:"
  | evictedKeys => ",evicted_keys:"

def load (d : Dispatcher) : Counter → Nat
  | totalRequests => d.totalRequests
  | totalReads => d.totalReads
  | totalWrites => d.totalWrites
  | cacheHits => d.cacheHits
  | cacheMisses => d.cacheMisses
  | expiredKeys => d.storage.expiredKeys
  | evictedKeys => d.storage.evictedKeys

end Counter

inductive Activity where
  | idle
  | called (cmd : Command)
  | switching (cmd : Command)
  | storing (key value : Str)
  | getting (key : Str)
  | looked (value : Option Str)
  | deleting (key : Str)
  | expiring (key : Str) (seconds : Int)
  | timing (key : Str)
  | loading (uptime : Int) (rest : List Counter) (stats : Str)
  | sizing (uptime : Int) (stats : Str) (rest : List (Fin numShards)) (total : Nat)
  | logging (rec : Record) (response : Str)
  | replying (response : Str)
  deriving DecidableEq, Repr

inductive Notice where
  | called (cmd : Command)
  | got (value : Option Str)
  | returned (response : Str)
  deriving DecidableEq, Repr

abbrev Advance := Activity × Dispatcher × List Notice

namespace Activity

def switchSet (d : Dispatcher) : List Str → Activity × Dispatcher
  | key :: value :: _ => (storing key value, { d with totalWrites := d.totalWrites + 1 })
  | _ => (replying (errorResponse "wrong number of arguments for 'set' command"), d)

def switchGet (d : Dispatcher) : List Str → Activity × Dispatcher
  | key :: _ => (getting key, { d with totalReads := d.totalReads + 1 })
  | [] => (replying (errorResponse "wrong number of arguments for 'get' command"), d)

def switchDel (d : Dispatcher) : List Str → Activity × Dispatcher
  | key :: _ => (deleting key, { d with totalWrites := d.totalWrites + 1 })
  | [] => (replying (errorResponse "wrong number of arguments for 'del' command"), d)

def switchExpire (d : Dispatcher) : List Str → Activity × Dispatcher
  | key :: number :: _ =>
      match stoll number with
      | none => (replying (errorResponse "value is not an integer or out of range"), d)
      | some seconds => (expiring key seconds, d)
  | _ => (replying (errorResponse "wrong number of arguments for 'expire' command"), d)

def switchTtl (d : Dispatcher) : List Str → Activity × Dispatcher
  | key :: _ => (timing key, d)
  | [] => (replying (errorResponse "wrong number of arguments for 'ttl' command"), d)

def switchOn (r : Readings) (cmd : Command) (d : Dispatcher) : Activity × Dispatcher :=
  match cmd.type with
  | .ping => (replying pongResponse, d)
  | .set => switchSet d cmd.args
  | .get => switchGet d cmd.args
  | .del => switchDel d cmd.args
  | .expire => switchExpire d cmd.args
  | .ttl => switchTtl d cmd.args
  | .stats => (loading ((wrap64 (r.now - d.startTime)).tdiv 1000000000) Counter.all [], d)
  | .unknown => (replying (errorResponse "unknown command"), d)

def count (value : Option Str) (d : Dispatcher) : Activity × Dispatcher :=
  match value with
  | some v => (replying (valueResponse v), { d with cacheHits := d.cacheHits + 1 })
  | none => (replying nilResponse, { d with cacheMisses := d.cacheMisses + 1 })

def settle (rec : Record) (o : Bool × ShardedStorage) (d : Dispatcher) : Activity × Dispatcher :=
  (if o.1 then logging rec (integerResponse 1) else replying (integerResponse 0),
    { d with storage := o.2 })

def silently (x : Activity × Dispatcher) : Option Advance := some (x.1, x.2, [])

variable (hash : Str → Nat)

def advance (r : Readings) (a : Activity) (d : Dispatcher) : Option Advance :=
  match a with
  | idle => none
  | called cmd => silently (switching cmd, { d with totalRequests := d.totalRequests + 1 })
  | switching cmd => silently (switchOn r cmd d)
  | storing key value =>
      silently (logging (.set key value) okResponse,
        { d with storage := d.storage.set hash key value })
  | getting key =>
      let o := d.storage.get hash r.now key
      some (looked o.1, { d with storage := o.2 }, [.got o.1])
  | looked value => silently (count value d)
  | deleting key => silently (settle (.del key) (d.storage.del hash r.now key) d)
  | expiring key seconds =>
      silently (settle (.expire key seconds) (d.storage.expire hash r.now r.later key seconds) d)
  | timing key =>
      let o := d.storage.ttl hash r.now r.later key
      silently (replying (integerResponse o.1), { d with storage := o.2 })
  | loading uptime (c :: rest) stats =>
      silently (loading uptime rest (stats ++ c.label.toList ++ stdToString (c.load d)), d)
  | loading uptime [] stats => silently (sizing uptime stats (List.finRange numShards) 0, d)
  | sizing uptime stats (i :: rest) total =>
      silently (sizing uptime stats rest (total + (d.storage.shards i).size), d)
  | sizing uptime stats [] total =>
      silently (replying (valueResponse (stats ++ ",current_keys:".toList ++ stdToString total ++
        ",uptime_seconds:".toList ++ stdToString uptime)), d)
  | logging rec response => silently (replying response, d.log (AOFWriter.log rec))
  | replying response => some (idle, d, [.returned response])

end Activity

structure Workers where
  dispatcher : Dispatcher
  activities : List Activity

inductive WorkerEvent where
  | call (w : Nat) (cmd : Command)
  | step (w : Nat) (r : Readings)
  | sweep (now : Int) (shard : Fin numShards) (order : List Str)

def Workers.start (storage : ShardedStorage) (aofWriter : Option AOFWriter) (startTime : Int)
    (n : Nat) : Workers := ⟨.create storage aofWriter startTime, List.replicate n .idle⟩

section

variable (hash : Str → Nat)

def dispatching : Machine Workers WorkerEvent Notice where
  step s e :=
    match e with
    | .call w cmd =>
        if s.activities[w]? = some .idle then
          some (⟨s.dispatcher, s.activities.set w (.called cmd)⟩, [.called cmd])
        else none
    | .step w r =>
        match s.activities[w]? with
        | none => none
        | some a => (a.advance hash r s.dispatcher).map fun x =>
            (⟨x.2.1, s.activities.set w x.1⟩, x.2.2)
    | .sweep now i order =>
        some (⟨{ s.dispatcher with storage := s.dispatcher.storage.sweepShard now i order },
          s.activities⟩, [])

def Silent (r : Readings) (x y : Activity × Dispatcher) : Prop :=
  ∃ ns, x.1.advance hash r x.2 = some (y.1, y.2, ns) ∧ ∀ n ∈ ns, ∀ response, n ≠ .returned response

abbrev Leads (r : Readings) : Activity × Dispatcher → Activity × Dispatcher → Prop :=
  Relation.ReflTransGen (Silent hash r)

variable {hash} {r : Readings} {d : Dispatcher}

theorem leads_next {a a' : Activity} {d' : Dispatcher} {ns : List Notice}
    {y : Activity × Dispatcher} (h : a.advance hash r d = some (a', d', ns))
    (hns : ∀ n ∈ ns, ∀ response, n ≠ .returned response) (hy : Leads hash r (a', d') y) :
    Leads hash r (a, d) y := .head ⟨ns,h,hns⟩ hy

theorem leads_step {a a' : Activity} {d' : Dispatcher} {y : Activity × Dispatcher}
    (h : a.advance hash r d = some (a', d', [])) (hy : Leads hash r (a', d') y) :
    Leads hash r (a, d) y := leads_next h (by simp) hy

theorem leads_sizing (uptime : Int) (stats : Str) (rest : List (Fin numShards)) (total : Nat) :
    Leads hash r (.sizing uptime stats rest total, d) (.sizing uptime stats []
      (total + (rest.map (fun i => (d.storage.shards i).size)).sum), d) := by
  induction rest generalizing total with
  | nil => exact .refl
  | cons i rest ih =>
    rw [List.map_cons, List.sum_cons, ← Nat.add_assoc]
    exact leads_step rfl (ih _)

theorem leads_settle {a : Activity} (rec : Record) (o : Bool × ShardedStorage)
    (h : a.advance hash r d = Activity.silently (Activity.settle rec o d)) :
    Leads hash r (a, d) (.replying (integerResponse (if o.1 then 1 else 0)),
      if o.1 then Dispatcher.log (AOFWriter.log rec) { d with storage := o.2 }
      else { d with storage := o.2 }) := by
  obtain ⟨b,st⟩ := o
  cases b with
  | false => exact leads_step h .refl
  | true => exact leads_step h (leads_step rfl .refl)

theorem leads_set (args : List Str) :
    Leads hash r (Activity.switchSet d args)
      (.replying (d.dispatchSet hash args).1, (d.dispatchSet hash args).2) := by
  rcases args with _ | ⟨k,_ | ⟨v,rest⟩⟩
  · exact .refl
  · exact .refl
  · exact leads_step rfl (leads_step rfl .refl)

theorem leads_get (args : List Str) :
    Leads hash r (Activity.switchGet d args)
      (.replying (d.dispatchGet hash r args).1, (d.dispatchGet hash r args).2) := by
  rcases args with _ | ⟨k,rest⟩
  · exact .refl
  · simp only [Activity.switchGet, Dispatcher.dispatchGet]
    refine leads_next rfl (by simp) ?_
    dsimp only
    cases (d.storage.get hash r.now k).1 <;> exact leads_step rfl .refl

theorem leads_del (args : List Str) :
    Leads hash r (Activity.switchDel d args)
      (.replying (d.dispatchDel hash r args).1, (d.dispatchDel hash r args).2) := by
  rcases args with _ | ⟨k,rest⟩
  · exact .refl
  · exact leads_settle (.del k) (d.storage.del hash r.now k) rfl

theorem leads_expire (args : List Str) :
    Leads hash r (Activity.switchExpire d args)
      (.replying (d.dispatchExpire hash r args).1, (d.dispatchExpire hash r args).2) := by
  rcases args with _ | ⟨k,_ | ⟨a,rest⟩⟩
  · exact .refl
  · exact .refl
  · simp only [Activity.switchExpire, Dispatcher.dispatchExpire]
    cases stoll a with
    | none => exact .refl
    | some n => exact leads_settle (.expire k n) (d.storage.expire hash r.now r.later k n) rfl

theorem leads_ttl (args : List Str) :
    Leads hash r (Activity.switchTtl d args)
      (.replying (d.dispatchTtl hash r args).1, (d.dispatchTtl hash r args).2) := by
  rcases args with _ | ⟨k,rest⟩
  · exact .refl
  · exact leads_step rfl .refl

theorem leads_stats :
    Leads hash r (.loading ((wrap64 (r.now - d.startTime)).tdiv 1000000000) Counter.all [], d)
      (.replying (valueResponse (d.statsText r.now)), d) := by
  refine leads_step rfl (leads_step rfl (leads_step rfl (leads_step rfl (leads_step rfl
    (leads_step rfl (leads_step rfl (leads_step rfl ?_)))))))
  refine (leads_sizing _ _ _ _).trans (leads_step rfl ?_)
  rw [Nat.zero_add]
  exact .refl

theorem leads_dispatch (cmd : Command) :
    Leads hash r (.called cmd, d)
      (.replying (d.dispatch hash r cmd).1, (d.dispatch hash r cmd).2) := by
  refine leads_step rfl (leads_step rfl ?_)
  obtain ⟨type,args⟩ := cmd
  cases type with
  | ping | unknown => exact .refl
  | set => exact leads_set args
  | get => exact leads_get args
  | del => exact leads_del args
  | expire => exact leads_expire args
  | ttl => exact leads_ttl args
  | stats => exact leads_stats

def replies (ns : List Notice) : List Str :=
  ns.filterMap fun
    | .returned response => some response
    | _ => none

theorem replies_silent {ns : List Notice} (h : ∀ n ∈ ns, ∀ response, n ≠ .returned response) :
    replies ns = [] := by
  refine List.filterMap_eq_nil_iff.mpr fun n hn => ?_
  cases n with
  | called | got => rfl
  | returned response => exact absurd rfl (h _ hn response)

theorem step_worker {s : Workers} {w : Nat} {a a' : Activity} {d' : Dispatcher} {ns : List Notice}
    (hw : s.activities[w]? = some a) (h : a.advance hash r s.dispatcher = some (a', d', ns)) :
    (dispatching hash).step s (.step w r) = some (⟨d', s.activities.set w a'⟩, ns) := by
  simp [dispatching, hw, h]

theorem run_leads {s₀ s : Workers} {es : List WorkerEvent} {ns : List Notice} {w : Nat}
    {a : Activity} {y : Activity × Dispatcher}
    (hrun : (dispatching hash).Run Machine.anyStep s₀ es s ns) (hw : s.activities[w]? = some a)
    (h : Leads hash r (a, s.dispatcher) y) :
    ∃ es' ns', (dispatching hash).Run Machine.anyStep s₀ es' ⟨y.2, s.activities.set w y.1⟩ ns' ∧
      replies ns' = replies ns := by
  obtain ⟨hlt,hget⟩ := List.getElem?_eq_some_iff.mp hw
  induction h with
  | refl =>
    refine ⟨es,ns,?_,rfl⟩
    rwa [← hget, List.set_getElem_self]
  | tail _ hstep ih =>
    obtain ⟨es',ns',hrun',hreplies⟩ := ih
    obtain ⟨o,hadv,ho⟩ := hstep
    have hnext := hrun'.snoc trivial (step_worker (List.getElem?_set_self hlt) hadv)
    rw [List.set_set] at hnext
    refine ⟨_,_,hnext,?_⟩
    rw [replies, List.filterMap_append, ← replies, ← replies, replies_silent ho, List.append_nil,
      hreplies]

theorem dispatch_alone (d : Dispatcher) (r : Readings) (cmd : Command) {activities : List Activity}
    {w : Nat} (hw : activities[w]? = some .idle) :
    ∃ es ns, (dispatching hash).Run Machine.anyStep ⟨d, activities⟩ es
        ⟨(d.dispatch hash r cmd).2, activities⟩ ns ∧
      replies ns = [(d.dispatch hash r cmd).1] := by
  obtain ⟨hlt,hget⟩ := List.getElem?_eq_some_iff.mp hw
  have hcall : (dispatching hash).step ⟨d, activities⟩ (.call w cmd) =
      some (⟨d, activities.set w (.called cmd)⟩, [.called cmd]) := if_pos hw
  obtain ⟨es,ns,hrun,hreplies⟩ := run_leads (Machine.Run.nil.snoc trivial hcall)
    (List.getElem?_set_self hlt) (leads_dispatch cmd)
  have hreturn := hrun.snoc trivial (step_worker (r := r) (List.getElem?_set_self (by simpa)) rfl)
  rw [List.set_set, List.set_set, ← hget, List.set_getElem_self] at hreturn
  refine ⟨_,_,hreturn,?_⟩
  rw [replies, List.filterMap_append, ← replies, ← replies, hreplies]
  rfl

end

end CacheForge
