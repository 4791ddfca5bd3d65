import CacheForge.Persistence.Effect
import CacheForge.Protocol.Replies
import CacheForge.Protocol.Workers

namespace CacheForge

def WorkerEvent.worker : WorkerEvent → Nat
  | .call w _ => w
  | .step w _ => w
  | .sweep _ _ _ => 0

def Notice.seen : Notice → Bool
  | .got _ => false
  | _ => true

def numbered (w : Nat) (ns : List Notice) : List (Nat × Notice) :=
  (ns.filter Notice.seen).map (Prod.mk w)

inductive Seat where
  | idle
  | called (cmd : Command)
  | answered (response : Str)
  deriving DecidableEq, Repr

structure Desk where
  dispatcher : Dispatcher
  seats : List Seat

inductive DeskEvent where
  | call (w : Nat) (cmd : Command)
  | perform (w : Nat) (r : Readings)
  | ret (w : Nat)
  | sweep (now : Int) (shard : Fin numShards) (order : List Str)

section

variable (hash : Str → Nat)

def dispatchingBy : Machine Workers WorkerEvent (Nat × Notice) where
  step s e := ((dispatching hash).step s e).map fun x => (x.1, numbered e.worker x.2)

def desk : Machine Desk DeskEvent (Nat × Notice) where
  step q e :=
    match e with
    | .call w cmd =>
        match q.seats[w]? with
        | some .idle => some (⟨q.dispatcher, q.seats.set w (.called cmd)⟩, [(w, .called cmd)])
        | _ => none
    | .perform w r =>
        match q.seats[w]? with
        | some (.called cmd) =>
            let (response, dispatcher) := q.dispatcher.dispatch hash r cmd
            some (⟨dispatcher, q.seats.set w (.answered response)⟩, [])
        | _ => none
    | .ret w =>
        match q.seats[w]? with
        | some (.answered response) =>
            some (⟨q.dispatcher, q.seats.set w .idle⟩, [(w, .returned response)])
        | _ => none
    | .sweep now i order =>
        some (⟨{ q.dispatcher with storage := q.dispatcher.storage.sweepShard now i order },
          q.seats⟩, [])

end

def Desk.start (storage : ShardedStorage) (aofWriter : Option AOFWriter) (startTime : Int)
    (n : Nat) : Desk := ⟨.create storage aofWriter startTime, List.replicate n .idle⟩

inductive Awaits : Activity → Command → Prop
  | called (cmd : Command) : Awaits (.called cmd) cmd
  | switching (cmd : Command) : Awaits (.switching cmd) cmd
  | storing (key value : Str) (rest : List Str) :
      Awaits (.storing key value) ⟨.set, key :: value :: rest⟩
  | getting (key : Str) (rest : List Str) : Awaits (.getting key) ⟨.get, key :: rest⟩
  | deleting (key : Str) (rest : List Str) : Awaits (.deleting key) ⟨.del, key :: rest⟩
  | expiring (key number : Str) (seconds : Int) (rest : List Str)
      (h : stoll number = some seconds) :
      Awaits (.expiring key seconds) ⟨.expire, key :: number :: rest⟩
  | timing (key : Str) (rest : List Str) : Awaits (.timing key) ⟨.ttl, key :: rest⟩

inductive Seated : Activity → Seat → Prop
  | idle : Seated .idle .idle
  | awaits {a : Activity} {cmd : Command} (h : Awaits a cmd) (hs : cmd.type ≠ .stats) :
      Seated a (.called cmd)
  | looked (value : Option Str) : Seated (.looked value) (.answered (getReply value))
  | logging (rec : Record) (response : Str) : Seated (.logging rec response) (.answered response)
  | replying (response : Str) : Seated (.replying response) (.answered response)

namespace Activity

def ahead : Activity → List Counter
  | switching _ => [.totalRequests]
  | storing _ _ => [.totalRequests, .totalWrites]
  | getting _ => [.totalRequests, .totalReads]
  | deleting _ => [.totalRequests, .totalWrites]
  | expiring _ _ => [.totalRequests]
  | timing _ => [.totalRequests]
  | _ => []

def behind : Activity → List Counter
  | looked (some _) => [.cacheHits]
  | looked none => [.cacheMisses]
  | _ => []

def unlogged : Activity → Option Record
  | logging rec _ => some rec
  | _ => none

def writes : Activity → Option Str
  | storing key _ => some key
  | deleting key => some key
  | expiring key _ => some key
  | _ => none

end Activity

def Lags (pending : List Record) : Option AOFWriter → Option AOFWriter → Prop
  | none, none => True
  | some w, some w' => w'.enabled = w.enabled ∧ w'.stopped = w.stopped ∧
      w'.queue.Perm (w.queue ++
        if w.enabled = true ∧ w.stopped = false then pending.map Record.line else [])
  | _, _ => False

section

variable {pending pending' : List Record} {o o' : Option AOFWriter}

theorem Lags.perm (h : Lags pending o o') (hp : pending.Perm pending') : Lags pending' o o' := by
  cases o <;> cases o'
  · trivial
  · cases h
  · cases h
  · obtain ⟨he,hs,hq⟩ := h
    refine ⟨he,hs,hq.trans (List.Perm.append_left _ ?_)⟩
    split
    · exact hp.map _
    · exact .refl _

theorem Lags.store (h : Lags pending o o') (rec : Record) :
    Lags (rec :: pending) o (o'.map (AOFWriter.log rec)) := by
  cases o <;> cases o'
  · trivial
  · cases h
  · cases h
  · rename_i w w'
    obtain ⟨he,hs,hq⟩ := h
    by_cases hon : w.enabled = true ∧ w.stopped = false
    · rw [if_pos hon] at hq
      refine ⟨?_,?_,?_⟩
      · simp [AOFWriter.log, AOFWriter.enqueue, he, hs, hon]
      · simp [AOFWriter.log, AOFWriter.enqueue, he, hs, hon]
      · simp only [AOFWriter.log, AOFWriter.enqueue, he, hs, hon, Bool.not_true]
        refine (hq.append_right [rec.line]).trans ?_
        rw [List.append_assoc]
        exact List.Perm.append_left _ List.perm_append_comm
    · have hoff : w'.log rec = w' := by
        simp only [not_and_or, Bool.not_eq_true, Bool.not_eq_false] at hon
        rcases hon with hon | hon <;> simp [AOFWriter.log, AOFWriter.enqueue, he, hs, hon]
      simp only [Option.map_some, Lags, hoff, if_neg hon] at hq ⊢
      exact ⟨he,hs,hq⟩

theorem Lags.log {rec : Record} (h : Lags (rec :: pending) o o') :
    Lags pending (o.map (AOFWriter.log rec)) o' := by
  cases o <;> cases o'
  · trivial
  · cases h
  · cases h
  · rename_i w w'
    obtain ⟨he,hs,hq⟩ := h
    by_cases hon : w.enabled = true ∧ w.stopped = false
    · rw [if_pos hon] at hq
      have hlog : w.log rec = { w with queue := w.queue ++ [rec.line] } := by
        simp [AOFWriter.log, AOFWriter.enqueue, hon]
      simp only [Option.map_some, Lags, hlog]
      refine ⟨he,hs,?_⟩
      rw [if_pos hon]
      simpa using hq
    · have hoff : w.log rec = w := by
        simp only [not_and_or, Bool.not_eq_true, Bool.not_eq_false] at hon
        rcases hon with hon | hon <;> simp [AOFWriter.log, AOFWriter.enqueue, hon]
      simp only [Option.map_some, Lags, hoff, if_neg hon] at hq ⊢
      exact ⟨he,hs,hq⟩

end

structure Balanced (a a' : Activity) (d d' e e' : Dispatcher) : Prop where
  counts : ∀ c : Counter, c.load e' + a'.ahead.count c + c.load d + a.behind.count c =
    c.load e + a.ahead.count c + c.load d' + a'.behind.count c
  logs : ∀ frame, Lags (a.unlogged.toList ++ frame) d.aofWriter e.aofWriter →
    Lags (a'.unlogged.toList ++ frame) d'.aofWriter e'.aofWriter

structure Performed (hash : Str → Nat) (r : Readings) (cmd : Command) (a a' : Activity)
    (d d' e : Dispatcher) : Prop where
  reply : Seated a' (.answered (e.dispatch hash r cmd).1)
  storage : (e.dispatch hash r cmd).2.storage = d'.storage
  balanced : Balanced a a' d d' e (e.dispatch hash r cmd).2
  writer : d'.aofWriter = d.aofWriter
  record : a.unlogged = none ∧ a'.unlogged = (effect hash r cmd d.storage).2
  target : ∀ rec ∈ a'.unlogged, a.writes = some rec.key

structure Linearizes (s : Workers) (q : Desk) : Prop where
  staff : q.seats.length = s.activities.length
  storage : q.dispatcher.storage = s.dispatcher.storage
  seats : ∀ (w : Nat) a, s.activities[w]? = some a → ∃ x, q.seats[w]? = some x ∧ Seated a x
  counts : ∀ c : Counter, c.load q.dispatcher + (s.activities.map (fun a => a.ahead.count c)).sum =
    c.load s.dispatcher + (s.activities.map (fun a => a.behind.count c)).sum
  logs : Lags (s.activities.filterMap Activity.unlogged) s.dispatcher.aofWriter
    q.dispatcher.aofWriter

namespace Linearizes

variable {hash : Str → Nat} {s : Workers} {q : Desk} {w : Nat} {a a' : Activity} {x x' : Seat}
  {d' e' : Dispatcher}

theorem start (d : Dispatcher) (n : Nat) :
    Linearizes ⟨d, List.replicate n .idle⟩ ⟨d, List.replicate n .idle⟩ := by
  refine ⟨by simp,rfl,fun w a hw => ?_,fun c => ?_,?_⟩
  · simp only [List.getElem?_replicate] at hw ⊢
    split at hw
    · rename_i hn
      cases hw
      exact ⟨.idle,if_pos hn,.idle⟩
    · cases hw
  · simp [Activity.ahead, Activity.behind]
  · have hnone : (List.replicate n Activity.idle).filterMap Activity.unlogged = [] :=
      List.filterMap_eq_nil_iff.mpr fun a ha => by rw [List.eq_of_mem_replicate ha]; rfl
    rw [hnone]
    cases d.aofWriter with
    | none => trivial
    | some writer => exact ⟨rfl,rfl,by simp⟩

theorem update (h : Linearizes s q) (hw : s.activities[w]? = some a) (hx : Seated a' x')
    (hst : e'.storage = d'.storage) (hb : Balanced a a' s.dispatcher d' q.dispatcher e') :
    Linearizes ⟨d', s.activities.set w a'⟩ ⟨e', q.seats.set w x'⟩ := by
  obtain ⟨y,hy,-⟩ := h.seats w a hw
  obtain ⟨hlt,-⟩ := List.getElem?_eq_some_iff.mp hy
  refine ⟨by simp [h.staff],hst,fun v b hv => ?_,fun c => ?_,?_⟩
  · rcases Machine.getElem?_set_cases hv with ⟨rfl,rfl⟩ | ⟨hne,hv⟩
    · exact ⟨x',List.getElem?_set_self hlt,hx⟩
    · rw [List.getElem?_set_ne hne]
      exact h.seats v b hv
  · obtain ⟨fa,hfa,hfa'⟩ := Machine.sum_set (fun a : Activity => a.ahead.count c) hw a'
    obtain ⟨fb,hfb,hfb'⟩ := Machine.sum_set (fun a : Activity => a.behind.count c) hw a'
    have hold := h.counts c
    have hlocal := hb.counts c
    simp only [hfa, hfb, hfa', hfb'] at hold ⊢
    omega
  · obtain ⟨frame,hold,hnew⟩ := Machine.filterMap_set_perm Activity.unlogged hw a'
    exact (hb.logs _ (h.logs.perm hold)).perm hnew.symm

theorem stutter (h : Linearizes s q) (hw : s.activities[w]? = some a) (hseat : q.seats[w]? = some x)
    (hx : Seated a' x) (hst : d'.storage = s.dispatcher.storage)
    (hb : Balanced a a' s.dispatcher d' q.dispatcher q.dispatcher) :
    Linearizes ⟨d', s.activities.set w a'⟩ q := by
  have hnext := h.update hw hx (h.storage.trans hst.symm) hb
  obtain ⟨hlt,hget⟩ := List.getElem?_eq_some_iff.mp hseat
  rwa [← hget, List.set_getElem_self] at hnext

end Linearizes

namespace Balanced

variable {hash : Str → Nat} {d e : Dispatcher} {cmd : Command} {key value : Str} {r : Readings}

theorem counted : Balanced (.called cmd) (.switching cmd) d
    { d with totalRequests := d.totalRequests + 1 } e e := by
  refine ⟨fun c => ?_,fun _ h => h⟩
  cases c <;> simp [Counter.load, Activity.ahead, Activity.behind]
  omega

theorem reading : Balanced (.switching cmd) (.getting key) d
    { d with totalReads := d.totalReads + 1 } e e := by
  refine ⟨fun c => ?_,fun _ h => h⟩
  cases c <;> simp [Counter.load, Activity.ahead, Activity.behind]
  omega

theorem writing {a : Activity} (ha : a.ahead = [.totalRequests, .totalWrites])
    (hb : a.behind = []) (hl : a.unlogged = none) : Balanced (.switching cmd) a d
      { d with totalWrites := d.totalWrites + 1 } e e := by
  refine ⟨fun c => ?_,fun _ h => by rwa [hl]⟩
  rw [ha, hb]
  cases c <;> simp [Counter.load, Activity.ahead, Activity.behind]
  omega

theorem passing {a : Activity} (ha : a.ahead = [.totalRequests]) (hb : a.behind = [])
    (hl : a.unlogged = none) : Balanced (.switching cmd) a d d e e := by
  refine ⟨fun c => ?_,fun _ h => by rwa [hl]⟩
  rw [ha, hb]
  rfl

theorem hit : Balanced (.looked (some value)) (.replying (valueResponse value)) d
    { d with cacheHits := d.cacheHits + 1 } e e := by
  refine ⟨fun c => ?_,fun _ h => h⟩
  cases c <;> simp [Counter.load, Activity.ahead, Activity.behind]
  omega

theorem missed : Balanced (.looked none) (.replying nilResponse) d
    { d with cacheMisses := d.cacheMisses + 1 } e e := by
  refine ⟨fun c => ?_,fun _ h => h⟩
  cases c <;> simp [Counter.load, Activity.ahead, Activity.behind]
  omega

theorem logged {rec : Record} {response : Str} : Balanced (.logging rec response)
    (.replying response) d (d.log (AOFWriter.log rec)) e e := by
  refine ⟨fun c => ?_,fun _ h => h.log⟩
  cases c <;> rfl

theorem entered : Balanced .idle (.called cmd) d d e e := ⟨fun _ => rfl,fun _ h => h⟩

theorem returned {response : Str} : Balanced (.replying response) .idle d d e e :=
  ⟨fun _ => rfl,fun _ h => h⟩

end Balanced

namespace Performed

variable {hash : Str → Nat} {d e : Dispatcher} {cmd : Command} {r : Readings} {key value : Str}
  {rest : List Str}

theorem refused {response : Str} (hst : e.storage = d.storage)
    (h : e.dispatch hash r cmd = (response, { e with totalRequests := e.totalRequests + 1 }))
    (hn : (effect hash r cmd d.storage).2 = none) :
    Performed hash r cmd (.switching cmd) (.replying response) d d e := by
  refine ⟨?_,?_,?_,rfl,⟨rfl,hn.symm⟩,by simp [Activity.unlogged]⟩ <;> rw [h]
  · exact .replying response
  · exact hst
  · refine ⟨fun c => ?_,fun _ hl => hl⟩
    cases c <;> simp [Counter.load, Activity.ahead, Activity.behind]

theorem set (hst : e.storage = d.storage) : Performed hash r ⟨.set, key :: value :: rest⟩
    (.storing key value) (.logging (.set key value) okResponse) d
    { d with storage := d.storage.set hash key value } e := by
  refine ⟨.logging _ _,?_,⟨fun c => ?_,fun _ hl => hl.store _⟩,rfl,⟨rfl,rfl⟩,?_⟩
  · exact congrArg (ShardedStorage.set hash key value) hst
  · cases c <;> simp [Counter.load, Activity.ahead, Activity.behind, Dispatcher.dispatch,
      Dispatcher.dispatchSet, Dispatcher.log, hst] <;> omega
  · rintro rec ⟨⟩
    rfl

theorem get (hst : e.storage = d.storage) : Performed hash r ⟨.get, key :: rest⟩ (.getting key)
    (.looked (d.storage.get hash r.now key).1) d
    { d with storage := (d.storage.get hash r.now key).2 } e := by
  have hreply := dispatch_get hash r key rest e
  rw [ShardedStorage.found, hst] at hreply
  refine ⟨hreply ▸ .looked _,?_,⟨fun c => ?_,fun _ hl => ?_⟩,rfl,⟨rfl,rfl⟩,
    by simp [Activity.unlogged]⟩
  · rw [(dispatch_effect hash r _ e).1, effect, hst]
  · simp only [Dispatcher.dispatch, Dispatcher.dispatchGet, hst]
    cases (d.storage.get hash r.now key).1 <;> cases c <;>
      simp [Counter.load, Activity.ahead, Activity.behind, hst] <;> omega
  · simp only [Dispatcher.dispatch, Dispatcher.dispatchGet]
    cases (e.storage.get hash r.now key).1 <;> exact hl

theorem ttl (hst : e.storage = d.storage) : Performed hash r ⟨.ttl, key :: rest⟩ (.timing key)
    (.replying (integerResponse (d.storage.ttl hash r.now r.later key).1)) d
    { d with storage := (d.storage.ttl hash r.now r.later key).2 } e := by
  rw [← hst]
  refine ⟨.replying _,rfl,⟨fun c => ?_,fun _ hl => hl⟩,rfl,⟨rfl,rfl⟩,by simp [Activity.unlogged]⟩
  cases c <;> simp [Counter.load, Activity.ahead, Activity.behind, Dispatcher.dispatch,
    Dispatcher.dispatchTtl, hst] <;> omega

theorem settled {a : Activity} {rec : Record} {o : Bool × ShardedStorage} (e' : Dispatcher)
    (hd : e.dispatch hash r cmd = (integerResponse (if o.1 then 1 else 0),
      if o.1 then Dispatcher.log (AOFWriter.log rec) { e' with storage := o.2 }
      else { e' with storage := o.2 }))
    (haof : e'.aofWriter = e.aofWriter) (hl : a.unlogged = none) (hb : a.behind = [])
    (hst : e.storage = d.storage)
    (hc : ∀ c : Counter, c.load { e' with storage := e.storage } = c.load e + a.ahead.count c)
    (hrec : (effect hash r cmd d.storage).2 = if o.1 then some rec else none)
    (hw : a.writes = some rec.key) :
    Performed hash r cmd a (Activity.settle rec o d).1 d (Activity.settle rec o d).2 e := by
  obtain ⟨b,st⟩ := o
  have hmove (c : Counter) : c.load { e' with storage := st } + c.load d =
      c.load e + a.ahead.count c + c.load { d with storage := st } := by
    have h := hc c
    cases c <;> simp only [Counter.load, hst] at h ⊢ <;> omega
  cases b with
  | false =>
    refine ⟨?_,?_,⟨fun c => ?_,fun _ h => ?_⟩,rfl,⟨hl,hrec.symm⟩,by simp [Activity.settle,
      Activity.unlogged]⟩ <;> rw [hd]
    · exact .replying _
    · rfl
    · rw [hb]
      exact hmove c
    · rw [hl] at h
      exact haof ▸ h
  | true =>
    refine ⟨?_,?_,⟨fun c => ?_,fun _ h => ?_⟩,rfl,⟨hl,hrec.symm⟩,?_⟩
    · rw [hd]
      exact .logging _ _
    · rw [hd]
      rfl
    · have hlogged := hmove c
      rw [hd, hb]
      cases c <;> exact hlogged
    · rw [hl] at h
      rw [hd]
      exact haof ▸ h.store rec
    · rintro rec' ⟨⟩
      exact hw

theorem del (hst : e.storage = d.storage) : Performed hash r ⟨.del, key :: rest⟩ (.deleting key)
    (Activity.settle (.del key) (d.storage.del hash r.now key) d).1 d
    (Activity.settle (.del key) (d.storage.del hash r.now key) d).2 e := by
  refine settled { e with
      totalRequests := e.totalRequests + 1
      totalWrites := e.totalWrites + 1 } ?_ rfl rfl rfl hst (fun c => ?_) rfl rfl
  · rw [← hst]
    rfl
  · cases c <;> simp [Counter.load, Activity.ahead]

theorem expire {number : Str} {seconds : Int} (hn : stoll number = some seconds)
    (hst : e.storage = d.storage) :
    let o := d.storage.expire hash r.now r.later key seconds
    Performed hash r ⟨.expire, key :: number :: rest⟩ (.expiring key seconds)
      (Activity.settle (.expire key seconds) o d).1 d
      (Activity.settle (.expire key seconds) o d).2 e := by
  refine settled { e with totalRequests := e.totalRequests + 1 } ?_ rfl rfl rfl hst (fun c => ?_)
    ?_ rfl
  · simp only [Dispatcher.dispatch, Dispatcher.dispatchExpire, hn, ← hst]
    rfl
  · cases c <;> simp [Counter.load, Activity.ahead]
  · simp only [effect, hn]

end Performed

inductive Advances (hash : Str → Nat) (r : Readings) (d e : Dispatcher) :
    Activity → Seat → Activity → Dispatcher → List Notice → Prop
  | returned (response : Str) : Advances hash r d e (.replying response) (.answered response) .idle
      d [.returned response]
  | logged (rec : Record) (response : Str) : Advances hash r d e (.logging rec response)
      (.answered response) (.replying response) (d.log (AOFWriter.log rec)) []
  | waits {a a' : Activity} {x : Seat} {d' : Dispatcher} (hx : Seated a' x)
      (hst : d'.storage = d.storage) (haof : d'.aofWriter = d.aofWriter)
      (hl : a'.unlogged = a.unlogged) (hb : Balanced a a' d d' e e) :
      Advances hash r d e a x a' d' []
  | performs {a a' : Activity} {cmd : Command} {d' : Dispatcher} {ns : List Notice}
      (h : Performed hash r cmd a a' d d' e) (hns : ns.filter Notice.seen = []) :
      Advances hash r d e a (.called cmd) a' d' ns

section

variable {hash : Str → Nat} {r : Readings} {d d' e : Dispatcher} {a a' : Activity} {x : Seat}
  {ns : List Notice}

theorem switching_advances {cmd : Command} (hs : cmd.type ≠ .stats) (hst : e.storage = d.storage)
    (hadv : (Activity.switching cmd).advance hash r d = some (a', d', ns)) :
    Advances hash r d e (.switching cmd) (.called cmd) a' d' ns := by
  obtain ⟨type,args⟩ := cmd
  cases type with
  | stats => exact absurd rfl hs
  | ping | unknown =>
    cases hadv
    exact .performs (.refused hst rfl rfl) rfl
  | set =>
    rcases args with _ | ⟨k,_ | ⟨v,rest⟩⟩
    · cases hadv
      exact .performs (.refused hst rfl rfl) rfl
    · cases hadv
      exact .performs (.refused hst rfl rfl) rfl
    · cases hadv
      exact .waits (.awaits (.storing k v rest) hs) rfl rfl rfl (.writing rfl rfl rfl)
  | get =>
    rcases args with _ | ⟨k,rest⟩
    · cases hadv
      exact .performs (.refused hst rfl rfl) rfl
    · cases hadv
      exact .waits (.awaits (.getting k rest) hs) rfl rfl rfl .reading
  | del =>
    rcases args with _ | ⟨k,rest⟩
    · cases hadv
      exact .performs (.refused hst rfl rfl) rfl
    · cases hadv
      exact .waits (.awaits (.deleting k rest) hs) rfl rfl rfl (.writing rfl rfl rfl)
  | expire =>
    rcases args with _ | ⟨k,_ | ⟨a,rest⟩⟩
    · cases hadv
      exact .performs (.refused hst rfl rfl) rfl
    · cases hadv
      exact .performs (.refused hst rfl rfl) rfl
    · cases hn : stoll a with
      | none =>
        simp only [Activity.advance, Activity.switchOn, Activity.switchExpire, hn] at hadv
        cases hadv
        have hd : e.dispatch hash r ⟨.expire, k :: a :: rest⟩ =
            (errorResponse "value is not an integer or out of range",
              { e with totalRequests := e.totalRequests + 1 }) := by
          simp [Dispatcher.dispatch, Dispatcher.dispatchExpire, hn]
        exact .performs (.refused hst hd (by simp [effect, hn])) rfl
      | some n =>
        simp only [Activity.advance, Activity.switchOn, Activity.switchExpire, hn] at hadv
        cases hadv
        exact .waits (.awaits (.expiring k a n rest hn) hs) rfl rfl rfl (.passing rfl rfl rfl)
  | ttl =>
    rcases args with _ | ⟨k,rest⟩
    · cases hadv
      exact .performs (.refused hst rfl rfl) rfl
    · cases hadv
      exact .waits (.awaits (.timing k rest) hs) rfl rfl rfl (.passing rfl rfl rfl)

theorem Seated.advances (hx : Seated a x) (hst : e.storage = d.storage)
    (hadv : a.advance hash r d = some (a', d', ns)) : Advances hash r d e a x a' d' ns := by
  cases hx with
  | idle => cases hadv
  | awaits hcmd hs =>
    cases hcmd with
    | called =>
      cases hadv
      exact .waits (.awaits (.switching _) hs) rfl rfl rfl .counted
    | switching => exact switching_advances hs hst hadv
    | storing key value rest =>
      cases hadv
      exact .performs (.set hst) rfl
    | getting key rest =>
      cases hadv
      exact .performs (.get hst) rfl
    | deleting key rest =>
      cases hadv
      exact .performs (.del hst) rfl
    | expiring key number seconds rest hn =>
      cases hadv
      exact .performs (.expire hn hst) rfl
    | timing key rest =>
      cases hadv
      exact .performs (.ttl hst) rfl
  | looked value =>
    cases value with
    | none =>
      cases hadv
      exact .waits (.replying _) rfl rfl rfl .missed
    | some v =>
      cases hadv
      exact .waits (.replying _) rfl rfl rfl .hit
  | logging rec response =>
    cases hadv
    exact .logged rec response
  | replying response =>
    cases hadv
    exact .returned response

end

namespace Linearizes

variable {hash : Str → Nat} {s : Workers} {q : Desk} {w : Nat} {a a' : Activity} {d' : Dispatcher}
  {ns : List Notice} {r : Readings}

theorem swept (h : Linearizes s q) (now : Int) (i : Fin numShards) (order : List Str) :
    Linearizes
      ⟨{ s.dispatcher with storage := s.dispatcher.storage.sweepShard now i order }, s.activities⟩
      ⟨{ q.dispatcher with storage := q.dispatcher.storage.sweepShard now i order }, q.seats⟩ := by
  refine ⟨h.staff,?_,h.seats,fun c => ?_,h.logs⟩
  · rw [h.storage]
  · have hc := h.counts c
    cases c <;> simp only [Counter.load, h.storage] at hc ⊢ <;> omega

theorem advance {Q : Desk → DeskEvent → Prop}
    (hQ : ∀ q e, (∀ w cmd, e ≠ .call w cmd) → Q q e) (h : Linearizes s q)
    (hw : s.activities[w]? = some a)
    (hadv : a.advance hash r s.dispatcher = some (a', d', ns)) :
    ∃ es' b, (desk hash).Run Q q es' b (numbered w ns) ∧
      Linearizes ⟨d', s.activities.set w a'⟩ b := by
  obtain ⟨x,hseat,hx⟩ := h.seats w a hw
  cases hx.advances h.storage hadv with
  | returned response =>
    exact ⟨[.ret w],_,.single (hQ _ _ (by simp)) (by simp [desk, hseat]; rfl),
      h.update hw .idle h.storage .returned⟩
  | logged rec response => exact ⟨[],q,.nil,h.stutter hw hseat (.replying _) rfl .logged⟩
  | waits hx' hst haof hl hb => exact ⟨[],q,.nil,h.stutter hw hseat hx' hst hb⟩
  | performs hp hns =>
    refine ⟨[.perform w r],_,.single (hQ _ _ (by simp))
      (by simp [desk, hseat, numbered, hns]; rfl),?_⟩
    exact h.update hw hp.reply hp.storage hp.balanced

theorem step {Q : Desk → DeskEvent → Prop} {o : List (Nat × Notice)} {e : WorkerEvent} {b : Workers}
    (hQ : ∀ q e, (∀ w cmd, e ≠ .call w cmd) → Q q e) (h : Linearizes s q)
    (hg : ∀ w cmd, e = .call w cmd → Q q (.call w cmd) ∧ cmd.type ≠ .stats)
    (hstep : (dispatchingBy hash).step s e = some (b, o)) :
    ∃ es' p, (desk hash).Run Q q es' p o ∧ Linearizes b p := by
  simp only [dispatchingBy, Option.map_eq_some_iff] at hstep
  obtain ⟨⟨t,ns⟩,hstep,heq⟩ := hstep
  cases heq
  cases e with
  | call w cmd =>
    simp only [dispatching] at hstep
    split at hstep
    · rename_i hw
      cases hstep
      obtain ⟨x,hseat,hx⟩ := h.seats w _ hw
      cases hx with
      | idle =>
        obtain ⟨hq,hs⟩ := hg w cmd rfl
        exact ⟨[.call w cmd],_,.single hq (by simp [desk, hseat]; rfl),
          h.update hw (.awaits (.called cmd) hs) h.storage .entered⟩
      | awaits hcmd => cases hcmd
    · cases hstep
  | step w r =>
    simp only [dispatching] at hstep
    split at hstep
    · cases hstep
    · rename_i a hw
      simp only [Option.map_eq_some_iff] at hstep
      obtain ⟨⟨a',d',ns'⟩,hadv,heq⟩ := hstep
      cases heq
      exact h.advance hQ hw hadv
  | sweep now i order =>
    cases hstep
    exact ⟨[.sweep now i order],_,.single (hQ _ _ (by simp)) rfl,h.swept now i order⟩

theorem quiescent (h : Linearizes s q) (hidle : ∀ a ∈ s.activities, a = .idle) :
    (∀ c : Counter, c.load q.dispatcher = c.load s.dispatcher) ∧
      ∀ writer ∈ s.dispatcher.aofWriter, ∃ writer' ∈ q.dispatcher.aofWriter,
        writer'.queue.Perm writer.queue := by
  have hrep := List.eq_replicate_of_mem hidle
  refine ⟨fun c => ?_,fun writer hwriter => ?_⟩
  · have hc := h.counts c
    rw [hrep] at hc
    simpa [Activity.ahead, Activity.behind] using hc
  · have hlogs := h.logs
    have hnone : s.activities.filterMap Activity.unlogged = [] :=
      List.filterMap_eq_nil_iff.mpr fun a ha => by rw [hidle a ha]; rfl
    rw [hnone, Option.mem_def.mp hwriter] at hlogs
    cases hq : q.dispatcher.aofWriter with
    | none =>
      rw [hq] at hlogs
      cases hlogs
    | some writer' =>
      rw [hq] at hlogs
      exact ⟨writer',rfl,by simpa using hlogs.2.2⟩

end Linearizes

-- STATS is left out: it loads the counters one by one, and has no moment of its own.
def NoStats (_ : Workers) : WorkerEvent → Prop
  | .call _ cmd => cmd.type ≠ .stats
  | _ => True

instance (s : Workers) (e : WorkerEvent) : Decidable (NoStats s e) :=
  match e with
  | .call _ cmd => inferInstanceAs (Decidable (cmd.type ≠ .stats))
  | .step _ _ => isTrue trivial
  | .sweep _ _ _ => isTrue trivial

theorem dispatches_linearize (hash : Str → Nat) (storage : ShardedStorage)
    (aofWriter : Option AOFWriter) (startTime : Int) (n : Nat) {es : List WorkerEvent}
    {s : Workers} {os : List (Nat × Notice)}
    (h : (dispatchingBy hash).Run NoStats (.start storage aofWriter startTime n) es s os) :
    ∃ es' q, (desk hash).Run Machine.anyStep (.start storage aofWriter startTime n) es' q os ∧
      q.dispatcher.storage = s.dispatcher.storage ∧
      ((∀ a ∈ s.activities, a = .idle) →
        (∀ c : Counter, c.load q.dispatcher = c.load s.dispatcher) ∧
        ∀ writer ∈ s.dispatcher.aofWriter, ∃ writer' ∈ q.dispatcher.aofWriter,
          writer'.queue.Perm writer.queue) := by
  obtain ⟨es',q,hrun,hq⟩ := Machine.Run.simulation (Q := Machine.anyStep) Linearizes
    (.start (.create storage aofWriter startTime) n)
    (fun s q e b o hr hg hstep => hr.step (fun _ _ _ => trivial)
      (fun w cmd he => ⟨trivial,by subst he; exact hg⟩) hstep) h
  exact ⟨es',q,hrun,hq.storage,hq.quiescent⟩

def overtakenGet : List WorkerEvent :=
  [.call 0 ⟨.get, [['k']]⟩, .call 1 ⟨.set, [['k'], ['v']]⟩, .call 2 ⟨.set, [['j'], ['w']]⟩,
    .step 0 ⟨0, 0⟩, .step 1 ⟨0, 0⟩, .step 1 ⟨0, 0⟩, .step 0 ⟨0, 0⟩, .step 1 ⟨0, 0⟩, .step 2 ⟨0, 0⟩,
    .step 2 ⟨0, 0⟩, .step 2 ⟨0, 0⟩, .step 2 ⟨1, 1⟩, .step 0 ⟨1, 1⟩, .step 0 ⟨1, 1⟩, .step 0 ⟨1, 1⟩,
    .step 1 ⟨1, 1⟩, .step 1 ⟨1, 1⟩, .step 2 ⟨1, 1⟩]

theorem overtaken_get_linearizes :
    ∃ s os, (dispatchingBy (fun _ => 0)).Run NoStats (.start (.create 48) (some .running) 0 3)
        overtakenGet s os ∧
      (∃ es' q, (desk (fun _ => 0)).Run Machine.anyStep (.start (.create 48) (some .running) 0 3)
          es' q os ∧
        q.dispatcher.storage = s.dispatcher.storage ∧
        ((∀ a ∈ s.activities, a = .idle) →
          (∀ c : Counter, c.load q.dispatcher = c.load s.dispatcher) ∧
          ∀ writer ∈ s.dispatcher.aofWriter, ∃ writer' ∈ q.dispatcher.aofWriter,
            writer'.queue.Perm writer.queue)) ∧
      (∀ a ∈ s.activities, a = .idle) ∧
      os = [(0, .called ⟨.get, [['k']]⟩), (1, .called ⟨.set, [['k'], ['v']]⟩),
        (2, .called ⟨.set, [['j'], ['w']]⟩), (0, .returned (valueResponse ['v'])),
        (1, .returned okResponse), (2, .returned okResponse)] ∧
      s.dispatcher.aofWriter = some ⟨true, false, ["SET j w".toList, "SET k v".toList]⟩ :=
  ⟨_,_,Machine.run_of_exec (by decide +kernel),
    dispatches_linearize _ _ (some .running) 0 3 (Machine.run_of_exec (by decide +kernel)),
    by decide +kernel,by decide +kernel,by decide +kernel⟩

end CacheForge
