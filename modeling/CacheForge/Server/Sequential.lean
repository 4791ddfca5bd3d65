import CacheForge.Persistence.Interleaved
import CacheForge.Server.Routing
import CacheForge.Server.Serving

namespace CacheForge

inductive Episode where
  | line (conn : Nat) (r : Readings) (text : Str)
  | sweep (now : Int) (shard : Fin numShards) (order : List Str)

def Episode.outcome (hash : Str → Nat) (d : Dispatcher) :
    Episode → Option (Nat × Command × Str) × Dispatcher
  | .line c r text =>
      let (response, dispatcher) := d.dispatch hash r (parseCommand text)
      (some (c, parseCommand text, response), dispatcher)
  | .sweep now i order => (none, { d with storage := d.storage.sweepShard now i order })

def exchangesOn (c : Nat) (xs : List (Option (Nat × Command × Str))) : List (Command × Str) :=
  xs.filterMap fun x => x.bind fun p => if p.1 = c then some p.2 else none

theorem exchanges_append (ns ms : List Note) :
    exchanges (ns ++ ms) = exchanges ns ++ exchanges ms :=
  List.filterMap_append ..

theorem exchangesOn_snoc (c : Nat) (xs : List (Option (Nat × Command × Str)))
    (x : Option (Nat × Command × Str)) :
    exchangesOn c (xs ++ [x]) = exchangesOn c xs ++ exchangesOn c [x] :=
  List.filterMap_append ..

theorem exchangesOn_self (c : Nat) (p : Command × Str) : exchangesOn c [some (c, p)] = [p] := by
  simp [exchangesOn]

theorem exchangesOn_other {b c : Nat} (h : b ≠ c) (p : Command × Str) :
    exchangesOn c [some (b, p)] = [] := by
  simp [exchangesOn, h]

section

variable (hash : Str → Nat) (A : Command → Prop) (d : Dispatcher)

def Asks (_ : Desk) (e : DeskEvent) : Prop := ∀ w cmd, e = .call w cmd → A cmd

structure Chronicled (hist : List Episode) (x : Serving Desk) (os : List Out) : Prop where
  state : x.back.dispatcher = (Transducer.run (Episode.outcome hash) hist d).2
  called : ∀ (w : Nat) cmd, x.back.seats[w]? = some (.called cmd) →
    A cmd ∧ ∃ c, x.front.workers[w]? = some (some ⟨c, .running cmd⟩)
  answered : ∀ (w : Nat) response, x.back.seats[w]? = some (.answered response) →
    ∃ c cmd, x.front.workers[w]? = some (some ⟨c, .running cmd⟩) ∧
      exchanges (notes c os) ++ [(cmd, response)] =
        exchangesOn c (Transducer.run (Episode.outcome hash) hist d).1
  settled : ∀ c, (∀ (w : Nat) response cmd, x.back.seats[w]? = some (.answered response) →
      x.front.workers[w]? ≠ some (some ⟨c, .running cmd⟩)) →
    exchanges (notes c os) = exchangesOn c (Transducer.run (Episode.outcome hash) hist d).1
  heard : ∀ c r text, Episode.line c r text ∈ hist →
    Out.extracted c text ∈ os ∧ A (parseCommand text)

end

namespace Chronicled

variable {hash : Str → Nat} {A : Command → Prop} {d : Dispatcher} {hist : List Episode}
  {s t : Server} {q : Desk} {os o : List Out} {w c : Nat} {cmd : Command} {response : Str}

theorem front (h : Chronicled hash A d hist ⟨s, q⟩ os) (hs : s.Sound) {e : Event}
    (he : e.isFront = true) (hstep : (server hash).step s e = some (t, o)) :
    Chronicled hash A d hist ⟨t, q⟩ (os ++ o) := by
  have hrun {w c : Nat} {cmd : Command} (hw : s.workers[w]? = some (some ⟨c, .running cmd⟩)) :
      t.workers[w]? = some (some ⟨c, .running cmd⟩) := Server.front_running hs he hstep hw
  have hsame (c : Nat) : exchanges (notes c (os ++ o)) = exchanges (notes c os) := by
    rw [notes_append, exchanges_append,
      Server.undispatched_exchanges (Server.front_step he hstep).2, List.append_nil]
  refine ⟨h.state,fun w cmd hw => ?_,fun w response hw => ?_,fun c hc => ?_,
    fun c r text hm => ?_⟩
  · obtain ⟨ha,c,hjob⟩ := h.called w cmd hw
    exact ⟨ha,c,hrun hjob⟩
  · obtain ⟨c,cmd,hjob,heq⟩ := h.answered w response hw
    exact ⟨c,cmd,hrun hjob,by rw [hsame, heq]⟩
  · rw [hsame]
    exact h.settled c fun w response cmd hw hjob => hc w response cmd hw (hrun hjob)
  · obtain ⟨hx,ha⟩ := h.heard c r text hm
    exact ⟨List.mem_append_left _ hx,ha⟩

theorem call (h : Chronicled hash A d hist ⟨s, q⟩ os) (hseat : q.seats[w]? = some .idle)
    (hjob : s.workers[w]? = some (some ⟨c, .running cmd⟩)) (ha : A cmd) :
    Chronicled hash A d hist ⟨s, ⟨q.dispatcher, q.seats.set w (.called cmd)⟩⟩ os := by
  refine ⟨h.state,fun v cmd' hv => ?_,fun v response hv => ?_,
    fun c hc => h.settled c fun v response cmd' hv => hc v response cmd' ?_,h.heard⟩
  · rcases Machine.getElem?_set_cases hv with ⟨rfl,hx⟩ | ⟨-,hv⟩
    · cases hx
      exact ⟨ha,c,hjob⟩
    · exact h.called v cmd' hv
  · rcases Machine.getElem?_set_cases hv with ⟨-,hx⟩ | ⟨-,hv⟩
    · cases hx
    · exact h.answered v response hv
  · simp only at hv ⊢
    rcases eq_or_ne w v with rfl | hne
    · rw [hseat] at hv
      cases hv
    · rwa [List.getElem?_set_ne hne]

theorem perform (h : Chronicled hash A d hist ⟨s, q⟩ os) (hs : s.Sound) {r : Readings} {text : Str}
    (hseat : q.seats[w]? = some (.called (parseCommand text)))
    (hjob : s.workers[w]? = some (some ⟨c, .running (parseCommand text)⟩))
    (htext : Out.extracted c text ∈ os) (ha : A (parseCommand text)) :
    Chronicled hash A d (hist ++ [.line c r text])
      ⟨s, ⟨(q.dispatcher.dispatch hash r (parseCommand text)).2, q.seats.set w
        (.answered (q.dispatcher.dispatch hash r (parseCommand text)).1)⟩⟩ os := by
  obtain ⟨hlt,-⟩ := List.getElem?_eq_some_iff.mp hseat
  have hstate : q.dispatcher = (Transducer.run (Episode.outcome hash) hist d).2 := h.state
  have hrun := Transducer.run_snoc (Episode.outcome hash) hist (.line c r text) d
  rw [← hstate] at hrun
  have hon (b : Nat) :
      exchangesOn b (Transducer.run (Episode.outcome hash) (hist ++ [.line c r text]) d).1 =
        exchangesOn b (Transducer.run (Episode.outcome hash) hist d).1 ++ exchangesOn b [some
          (c, parseCommand text, (q.dispatcher.dispatch hash r (parseCommand text)).1)] := by
    rw [hrun, exchangesOn_snoc]
    rfl
  refine ⟨by rw [hrun]; rfl,fun v cmd hv => ?_,fun v response hv => ?_,fun b hb => ?_,
    fun b r' text' hm => ?_⟩
  · rcases Machine.getElem?_set_cases hv with ⟨-,hx⟩ | ⟨-,hv⟩
    · cases hx
    · exact h.called v cmd hv
  · rcases Machine.getElem?_set_cases hv with ⟨rfl,hx⟩ | ⟨hne,hv⟩
    · cases hx
      have hsettled := h.settled c fun v response cmd hv hjob' => by
        obtain rfl := hs.alone hjob hjob'
        exact absurd (hseat.symm.trans hv) (by simp)
      exact ⟨c,_,hjob,by rw [hsettled, hon, exchangesOn_self]⟩
    · obtain ⟨b,cmd,hjob',heq⟩ := h.answered v response hv
      have hbc : c ≠ b := by
        rintro rfl
        exact hne (hs.alone hjob hjob')
      exact ⟨b,cmd,hjob',by rw [heq, hon, exchangesOn_other hbc, List.append_nil]⟩
  · have hbc : c ≠ b := by
      rintro rfl
      exact hb w _ _ (List.getElem?_set_self hlt) hjob
    rw [hon, exchangesOn_other hbc, List.append_nil]
    refine h.settled b fun v response cmd hv => hb v response cmd ?_
    simp only at hv ⊢
    rcases eq_or_ne w v with rfl | hne
    · exact absurd (hseat.symm.trans hv) (by simp)
    · rwa [List.getElem?_set_ne hne]
  · rcases List.mem_append.mp hm with hm | hm
    · exact h.heard b r' text' hm
    · cases List.mem_singleton.mp hm
      exact ⟨htext,ha⟩

theorem ret (h : Chronicled hash A d hist ⟨s, q⟩ os) (hs : s.Sound)
    (hseat : q.seats[w]? = some (.answered response))
    (hjob : s.workers[w]? = some (some ⟨c, .running cmd⟩)) :
    Chronicled hash A d hist ⟨s.setWorker w (some ⟨c, sendLoop response 0⟩),
      ⟨q.dispatcher, q.seats.set w .idle⟩⟩ (os ++ [.dispatched c cmd response]) := by
  have hbusy {v : Nat} {x : Seat} (hv : (q.seats.set w .idle)[v]? = some x) (hx : x ≠ .idle) :
      w ≠ v ∧ q.seats[v]? = some x :=
    (Machine.getElem?_set_cases hv).resolve_left fun h => hx h.2
  have hworker {v : Nat} (hne : w ≠ v) :
      (s.setWorker w (some ⟨c, sendLoop response 0⟩)).workers[v]? = s.workers[v]? :=
    List.getElem?_set_ne hne
  have hself : exchanges (notes c [.dispatched c cmd response]) = [(cmd, response)] := by
    simp [notes, Out.note, exchanges, Note.exchange]
  have hnone {b : Nat} (hb : c ≠ b) : exchanges (notes b [.dispatched c cmd response]) = [] := by
    simp [notes, Out.note, hb, exchanges]
  refine ⟨h.state,fun v cmd' hv => ?_,fun v response' hv => ?_,fun b hb => ?_,
    fun b r text hm => ?_⟩
  · obtain ⟨hne,hv⟩ := hbusy hv (by simp)
    rw [hworker hne]
    exact h.called v cmd' hv
  · obtain ⟨hne,hv⟩ := hbusy hv (by simp)
    obtain ⟨b,cmd',hjob',heq⟩ := h.answered v response' hv
    have hbc : c ≠ b := by
      rintro rfl
      exact hne (hs.alone hjob hjob')
    refine ⟨b,cmd',(hworker hne).trans hjob',?_⟩
    rw [notes_append, exchanges_append, hnone hbc, List.append_nil, heq]
  · rw [notes_append, exchanges_append]
    rcases eq_or_ne c b with rfl | hbc
    · obtain ⟨b,cmd',hjob',heq⟩ := h.answered w response hseat
      cases hjob.symm.trans hjob'
      rw [hself, heq]
    · rw [hnone hbc, List.append_nil]
      refine h.settled b fun v response' cmd' hv hjob' => ?_
      have hne : w ≠ v := by
        rintro rfl
        cases hjob.symm.trans hjob'
        exact hbc rfl
      exact hb v response' cmd' ((List.getElem?_set_ne hne).trans hv) ((hworker hne).trans hjob')
  · obtain ⟨hx,ha⟩ := h.heard b r text hm
    exact ⟨List.mem_append_left _ hx,ha⟩

theorem sweep (h : Chronicled hash A d hist ⟨s, q⟩ os) (now : Int) (i : Fin numShards)
    (order : List Str) :
    Chronicled hash A d (hist ++ [.sweep now i order])
      ⟨s, ⟨{ q.dispatcher with storage := q.dispatcher.storage.sweepShard now i order },
        q.seats⟩⟩ os := by
  have hstate : q.dispatcher = (Transducer.run (Episode.outcome hash) hist d).2 := h.state
  have hrun := Transducer.run_snoc (Episode.outcome hash) hist (.sweep now i order) d
  rw [← hstate] at hrun
  have hsame (c : Nat) :
      exchangesOn c (Transducer.run (Episode.outcome hash) (hist ++ [.sweep now i order]) d).1 =
        exchangesOn c (Transducer.run (Episode.outcome hash) hist d).1 := by
    rw [hrun, exchangesOn_snoc]
    exact List.append_nil _
  refine ⟨by rw [hrun]; rfl,h.called,fun w response hw => ?_,fun c hc => ?_,fun c r text hm => ?_⟩
  · obtain ⟨c,cmd,hjob,heq⟩ := h.answered w response hw
    exact ⟨c,cmd,hjob,by rw [hsame, heq]⟩
  · rw [hsame]
    exact h.settled c hc
  · rcases List.mem_append.mp hm with hm | hm
    · exact h.heard c r text hm
    · cases List.mem_singleton.mp hm

theorem back (h : Chronicled hash A d hist ⟨s, q⟩ os) (hs : s.Sound) (hheard : s.Heard os)
    {e : DeskEvent} {q' : Desk} {ns : List (Nat × Notice)} (hg : Asks A q e)
    (hstep : (desk hash).step q e = some (q', ns)) (hhear : s.hear ns = some (t, o)) :
    ∃ hist', Chronicled hash A d hist' ⟨t, q'⟩ (os ++ o) := by
  cases e with
  | call w cmd =>
    simp only [desk] at hstep
    split at hstep
    · rename_i hseat
      cases hstep
      obtain ⟨u,p,p',hn,hrest,rfl⟩ := Server.hear_cons hhear
      cases hrest
      rcases Server.notice_cases hn with ⟨v,c,k,hv,hjob,rfl,rfl⟩ | ⟨v,c,k,response,hv,-,-,-⟩
      · cases hv
        rw [List.append_nil, List.append_nil]
        exact ⟨hist,h.call hseat hjob (hg w cmd rfl)⟩
      · cases hv
    · cases hstep
  | perform w r =>
    simp only [desk] at hstep
    split at hstep
    · rename_i cmd hseat
      cases hstep
      cases hhear
      obtain ⟨ha,c,hjob⟩ := h.called w cmd hseat
      obtain ⟨line,hline,rfl⟩ := hheard c cmd (Server.running_held hs hjob)
      rw [List.append_nil]
      exact ⟨_,h.perform hs hseat hjob hline ha⟩
    · cases hstep
  | ret w =>
    simp only [desk] at hstep
    split at hstep
    · rename_i response hseat
      cases hstep
      obtain ⟨u,p,p',hn,hrest,rfl⟩ := Server.hear_cons hhear
      cases hrest
      rcases Server.notice_cases hn with ⟨v,c,k,hv,-,-,-⟩ | ⟨v,c,k,response',hv,hjob,rfl,rfl⟩
      · cases hv
      · cases hv
        rw [List.append_nil]
        exact ⟨hist,h.ret hs hseat hjob⟩
    · cases hstep
  | sweep now i order =>
    cases hstep
    cases hhear
    rw [List.append_nil]
    exact ⟨_,h.sweep now i order⟩

theorem run {numThreads : Nat} {seats : List Seat} {x : Serving Desk}
    {es : List (ServingEvent DeskEvent)} (hidle : ∀ y ∈ seats, y = .idle)
    (h : (serving hash (desk hash)).Run (BackMeets (Asks A)) ⟨.start numThreads d, ⟨d, seats⟩⟩ es x
      os) :
    x.front.Sound ∧ ∃ hist, Chronicled hash A d hist x os := by
  have hfresh {w : Nat} {y : Seat} (hw : seats[w]? = some y) : y = .idle :=
    hidle y (List.mem_of_getElem? hw)
  obtain ⟨hs,-,hist,hc⟩ := h.invariant
    (fun x os => x.front.Sound ∧ x.front.Heard os ∧ ∃ hist, Chronicled hash A d hist x os)
    ⟨Server.sound_start numThreads d,Server.heard_start numThreads d,[],rfl,
      fun w cmd hw => absurd (hfresh hw) (by simp),
      fun w response hw => absurd (hfresh hw) (by simp),fun c _ => rfl,by simp⟩ (by
      rintro ⟨s,q⟩ os (e | e) ⟨t,q'⟩ o ⟨hs,hheard,hist,hc⟩ hg hstep
      · obtain ⟨he,hfront,hback⟩ := front_spec hstep
        have hp := Server.step_projects hs hfront
        obtain rfl : q' = q := hback
        exact ⟨hp.sound hs,hheard.projects hp,hist,hc.front hs he hfront⟩
      · obtain ⟨ns,hback,hhear⟩ := back_spec hstep
        obtain ⟨hs',hheard'⟩ := Server.hear_invariant
          (fun s os e t o _ hi hp => Server.Heard.projects hi hp) hs hheard hhear
        exact ⟨hs',hheard',hc.back hs hheard hg hback hhear⟩)
  exact ⟨hs,hist,hc⟩

theorem replies (h : Chronicled hash A d hist ⟨s, q⟩ os) (hs : s.Sound) (hord : s.InOrder os)
    (c : Nat) :
    exchanges (notes c os) <+: exchangesOn c (Transducer.run (Episode.outcome hash) hist d).1 ∧
      ((exchangesOn c (Transducer.run (Episode.outcome hash) hist d).1).map Prod.fst).Sublist
        (extracted (notes c os)) := by
  by_cases hc : ∀ (w : Nat) response cmd, q.seats[w]? = some (.answered response) →
      s.workers[w]? ≠ some (some ⟨c, .running cmd⟩)
  · rw [← h.settled c hc, (exchanges_parts _).1]
    exact ⟨List.prefix_rfl,(List.sublist_append_left _ _).trans (hord c)⟩
  · simp only [not_forall, not_not] at hc
    obtain ⟨w,response,cmd,hseat,hjob⟩ := hc
    obtain ⟨b,cmd',hjob',heq⟩ := h.answered w response hseat
    cases hjob.symm.trans hjob'
    rw [← heq, List.map_append, (exchanges_parts _).1]
    refine ⟨List.prefix_append _ _,List.Sublist.trans ?_ (hord c)⟩
    refine List.Sublist.append_left (List.singleton_sublist.mpr ?_) _
    exact Server.running_held hs hjob

end Chronicled

def Serving.start (numThreads : Nat) (d : Dispatcher) : Serving Workers :=
  ⟨.start numThreads d, ⟨d, List.replicate (Server.start numThreads d).workers.length .idle⟩⟩

def Serving.deskStart (numThreads : Nat) (d : Dispatcher) : Serving Desk :=
  ⟨.start numThreads d, ⟨d, List.replicate (Server.start numThreads d).workers.length .idle⟩⟩

theorem serving_chronicled {hash : Str → Nat} {numThreads : Nat} {d : Dispatcher}
    {P : Workers → WorkerEvent → Prop} {A : Command → Prop}
    (hP : ∀ s w cmd, P s (.call w cmd) → A cmd ∧ cmd.type ≠ .stats)
    {es : List (ServingEvent WorkerEvent)} {x : Serving Workers} {os : List Out}
    (h : (serving hash (dispatchingBy hash)).Run (BackMeets P) (.start numThreads d) es x os) :
    ∃ ds q hist, (serving hash (desk hash)).Run (BackMeets (Asks A)) (.deskStart numThreads d) ds
        ⟨x.front, q⟩ os ∧
      Linearizes x.back q ∧ x.front.Sound ∧ x.front.InOrder os ∧
      Chronicled hash A d hist ⟨x.front, q⟩ os := by
  obtain ⟨ds,q,hrun,hlin⟩ := Serving.simulation (N := desk hash) (Q := Asks A) Linearizes
    (.start d _) (fun s q e t o hr hg hstep => hr.step (fun _ e he w cmd hc => absurd hc (he w cmd))
      (fun w cmd he => by
        subst he
        obtain ⟨ha,hs⟩ := hP s w cmd hg
        refine ⟨fun w' cmd' hc => ?_,hs⟩
        cases hc
        exact ha) hstep) h
  obtain ⟨hs,hist,hc⟩ := Chronicled.run (fun y hy => List.eq_of_mem_replicate hy) hrun
  have hord := (Serving.run_projects (I := Server.InOrder) (Server.sound_start numThreads d)
    (Server.inOrder_start numThreads d) (fun s os e t o _ hi hp => hi.projects hp) h).2
  exact ⟨ds,q,hist,hrun,hlin,hs,hord,hc⟩

theorem Chronicled.quiescent {hash : Str → Nat} {A : Command → Prop} {d : Dispatcher}
    {hist : List Episode} {x : Serving Workers} {q : Desk} {os : List Out}
    (h : Chronicled hash A d hist ⟨x.front, q⟩ os) (hlin : Linearizes x.back q)
    (hidle : ∀ a ∈ x.back.activities, a = .idle) (c : Nat) :
    exchanges (notes c os) = exchangesOn c (Transducer.run (Episode.outcome hash) hist d).1 := by
  refine h.settled c fun w response cmd hw => ?_
  have hlt : w < x.back.activities.length := hlin.staff ▸ (List.getElem?_eq_some_iff.mp hw).1
  obtain ⟨y,hy,hseated⟩ := hlin.seats w _ (List.getElem?_eq_getElem hlt)
  rw [hidle _ (List.getElem_mem hlt)] at hseated
  cases hy.symm.trans hw
  cases hseated

theorem server_serves_serially (hash : Str → Nat) (numThreads : Nat) (d : Dispatcher)
    {es : List (ServingEvent WorkerEvent)} {x : Serving Workers} {os : List Out}
    (h : (serving hash (dispatchingBy hash)).Run (BackMeets NoStats) (.start numThreads d) es x
      os) :
    ∃ ds q hist, (serving hash (desk hash)).Run (BackMeets (Asks fun cmd => cmd.type ≠ .stats))
        (.deskStart numThreads d) ds ⟨x.front, q⟩ os ∧
      let serial := Transducer.run (Episode.outcome hash) hist d
      q.dispatcher = serial.2 ∧ x.back.dispatcher.storage = serial.2.storage ∧
      (∀ c, exchanges (notes c os) <+: exchangesOn c serial.1) ∧
      (∀ c, ((exchangesOn c serial.1).map Prod.fst).Sublist (extracted (notes c os))) ∧
      (∀ c r text, Episode.line c r text ∈ hist → Out.extracted c text ∈ os) ∧
      ((∀ a ∈ x.back.activities, a = .idle) →
        (∀ c, exchanges (notes c os) = exchangesOn c serial.1) ∧
        (∀ k : Counter, k.load serial.2 = k.load x.back.dispatcher) ∧
        ∀ writer ∈ x.back.dispatcher.aofWriter, ∃ writer' ∈ serial.2.aofWriter,
          writer'.queue.Perm writer.queue) := by
  obtain ⟨ds,q,hist,hrun,hlin,hs,hord,hc⟩ :=
    serving_chronicled (A := fun cmd => cmd.type ≠ .stats) (fun s w cmd hg => ⟨hg,hg⟩) h
  have hstate : q.dispatcher = (Transducer.run (Episode.outcome hash) hist d).2 := hc.state
  refine ⟨ds,q,hist,hrun,hstate,hlin.storage.symm.trans (congrArg Dispatcher.storage hstate),
    fun c => (hc.replies hs hord c).1,fun c => (hc.replies hs hord c).2,
    fun c r text hm => (hc.heard c r text hm).1,fun hidle => ?_⟩
  obtain ⟨hcounts,hlogs⟩ := hlin.quiescent hidle
  rw [hstate] at hcounts hlogs
  exact ⟨hc.quiescent hlin hidle,hcounts,hlogs⟩

def connected (fd : Nat) (text : Str) : List (ServingEvent WorkerEvent) :=
  [.accept fd, .ready fd false true false, .loop, .recv (.bytes text), .loop, .loop, .loop, .loop,
    .loop].map .front

def taken (w : Nat) (cmd : Command) : List (ServingEvent WorkerEvent) :=
  [.front (.take w), .back (.call w cmd)]

def advanced (n w : Nat) (now : Int) : List (ServingEvent WorkerEvent) :=
  List.replicate n (.back (.step w ⟨now, now⟩))

def replied (w sent : Nat) : List (ServingEvent WorkerEvent) :=
  [.front (.send w (.bytes sent)), .front (.clear w)]

def overtakenRequest : List (ServingEvent WorkerEvent) :=
  connected 5 "GET k\n".toList ++ connected 6 "SET k v\n".toList ++ taken 0 ⟨.get, [['k']]⟩ ++
    taken 1 ⟨.set, [['k'], ['v']]⟩ ++ advanced 2 0 1 ++ advanced 3 1 1 ++ advanced 3 0 2 ++
    replied 0 3

theorem overtaken_request_served :
    ∃ x os, (serving (fun _ => 0) (dispatchingBy fun _ => 0)).Run (BackMeets NoStats)
        (.start 2 (.fresh 48 0)) overtakenRequest x os ∧
      (∃ ds q hist, (serving (fun _ => 0) (desk fun _ => 0)).Run
          (BackMeets (Asks fun cmd => cmd.type ≠ .stats)) (.deskStart 2 (.fresh 48 0)) ds
          ⟨x.front, q⟩ os ∧
        let serial := Transducer.run (Episode.outcome fun _ => 0) hist (.fresh 48 0)
        q.dispatcher = serial.2 ∧ x.back.dispatcher.storage = serial.2.storage ∧
        (∀ c, exchanges (notes c os) <+: exchangesOn c serial.1) ∧
        (∀ c, ((exchangesOn c serial.1).map Prod.fst).Sublist (extracted (notes c os))) ∧
        (∀ c r text, Episode.line c r text ∈ hist → Out.extracted c text ∈ os) ∧
        ((∀ a ∈ x.back.activities, a = .idle) →
          (∀ c, exchanges (notes c os) = exchangesOn c serial.1) ∧
          (∀ k : Counter, k.load serial.2 = k.load x.back.dispatcher) ∧
          ∀ writer ∈ x.back.dispatcher.aofWriter, ∃ writer' ∈ serial.2.aofWriter,
            writer'.queue.Perm writer.queue)) ∧
      exchanges (notes 0 os) = [(⟨.get, [['k']]⟩, "$v\n".toList)] ∧
      x.back.activities = [.idle, .logging (.set ['k'] ['v']) okResponse] :=
  ⟨_,_,Machine.run_of_exec (by decide +kernel),
    server_serves_serially _ 2 _ (Machine.run_of_exec (by decide +kernel)),by decide +kernel,
    by decide +kernel⟩

def Confined (K : Finset Str) (_ : Workers) : WorkerEvent → Prop
  | .call _ cmd => cmd.Within K
  | _ => True

instance (K : Finset Str) (s : Workers) (e : WorkerEvent) : Decidable (Confined K s e) :=
  match e with
  | .call _ cmd => inferInstanceAs (Decidable (cmd.Within K))
  | .step _ _ => isTrue trivial
  | .sweep _ _ _ => isTrue trivial

def Episode.Within (K : Finset Str) : Episode → Prop
  | .line _ _ text => (parseCommand text).Within K
  | .sweep _ _ _ => True

theorem Alike.served {hash : Str → Nat} {K : Finset Str} {d d' : Dispatcher}
    (h : Alike hash K d.storage d'.storage) {e : Episode} (he : e.Within K) :
    (e.outcome hash d').1 = (e.outcome hash d).1 ∧
      Alike hash K (e.outcome hash d).2.storage (e.outcome hash d').2.storage := by
  cases e with
  | line c r text =>
    refine ⟨?_,?_⟩
    · exact congrArg (fun response => some (c, parseCommand text, response))
        (h.reply r he.1.1 he.1.2)
    · have heff := h.effect (q := .line r text) he
      simp only [Episode.outcome]
      rw [(dispatch_effect hash r _ d).1, (dispatch_effect hash r _ d').1]
      exact heff
  | sweep now i order =>
    exact ⟨rfl,h.effect (q := .sweep now i order) ⟨trivial,by simp [Request.setKey]⟩⟩

theorem Alike.serial {hash : Str → Nat} {K : Finset Str} {d d' : Dispatcher}
    (h : Alike hash K d.storage d'.storage) {hist : List Episode} (hh : ∀ e ∈ hist, e.Within K) :
    (Transducer.run (Episode.outcome hash) hist d').1 =
        (Transducer.run (Episode.outcome hash) hist d).1 ∧
      Alike hash K (Transducer.run (Episode.outcome hash) hist d).2.storage
        (Transducer.run (Episode.outcome hash) hist d').2.storage := by
  obtain ⟨hreplies,hstate⟩ := Transducer.lockstep (f := Episode.outcome hash)
    (g := Episode.outcome hash) (A := Episode.Within K) (Q := fun x y => y = x)
    (R := fun d d' => Alike hash K d.storage d'.storage) (fun _ _ _ he hr => hr.served he) hh h
  refine ⟨?_,hstate⟩
  exact (List.forall₂_eq_eq_eq ▸ hreplies.flip)

theorem server_restart_unnoticed (hash : Str → Nat) (maxKeys numThreads numThreads' : Nat)
    (startTime startTime' : Int) (clock : Nat → Readings) (K : Finset Str)
    {es es' : List (ServingEvent WorkerEvent)} {x x' : Serving Workers} {os os' : List Out}
    {ws : List WriterEvent} {w : Writer} {wos : List WriterOut}
    (h : (serving hash (dispatchingBy hash)).Run (BackMeets (Careful K))
      (.start numThreads (.fresh maxKeys startTime)) es x os)
    (hidle : ∀ a ∈ x.back.activities, a = .idle)
    (hwriter : aofWriter.Run StaysGood (.start []) ws w wos) (hstopped : w.stopping = .returned)
    (hpushed : pushed wos = x.back.dispatcher.logged)
    (hreturned : returned (beforeStop wos) = x.back.dispatcher.logged)
    (h' : (serving hash (dispatchingBy hash)).Run (BackMeets (Confined K)) (.start numThreads'
      (.create (replay hash clock (some w.file) (.create maxKeys)).storage (some .running)
        startTime')) es' x' os')
    (hroom : ∀ i, (K.filter (fun k => shardIndex hash k = i)).card ≤ max 1 (maxKeys / numShards)) :
    ∃ hist, let serial := Transducer.run (Episode.outcome hash) hist x.back.dispatcher
      (∀ c, exchanges (notes c os') <+: exchangesOn c serial.1) ∧
      (∀ c, ((exchangesOn c serial.1).map Prod.fst).Sublist (extracted (notes c os'))) ∧
      (∀ k, x'.back.dispatcher.storage.lookup hash k = serial.2.storage.lookup hash k) ∧
      ((∀ a ∈ x'.back.activities, a = .idle) →
        ∀ c, exchanges (notes c os') = exchangesOn c serial.1) := by
  obtain ⟨ds,ns,hback⟩ := Serving.run_back h
  obtain ⟨recs,hrecs⟩ := Tallies.run hroom hback
  obtain ⟨hlogged,halike⟩ := hrecs.restored hidle clock hroom
  have hfile := stopped_file hwriter hstopped hpushed hreturned
  rw [List.nil_append, hlogged] at hfile
  rw [← hfile] at halike
  obtain ⟨ds',q,hist,-,hlin,hs,hord,hc⟩ :=
    serving_chronicled (A := Command.Within K) (fun s w cmd hg => ⟨hg,hg.1.2⟩) h'
  have hwithin : ∀ e ∈ hist, e.Within K := by
    intro e he
    cases e with
    | line c r text => exact (hc.heard c r text he).2
    | sweep now i order => trivial
  have hboot : Alike hash K x.back.dispatcher.storage (Dispatcher.create
    (replay hash clock (some w.file) (.create maxKeys)).storage (some .running)
      startTime').storage := halike
  obtain ⟨hreplies,hstate⟩ := hboot.serial hwithin
  refine ⟨hist,fun c => ?_,fun c => ?_,fun k => ?_,fun hidle' c => ?_⟩
  · rw [← hreplies]
    exact (hc.replies hs hord c).1
  · rw [← hreplies]
    exact (hc.replies hs hord c).2
  · rw [← hstate.lookup k, ← hlin.storage]
    exact congrArg (fun d => ShardedStorage.lookup hash (Dispatcher.storage d) k) hc.state
  · rw [← hreplies]
    exact hc.quiescent hlin hidle' c

def twoStored : List (ServingEvent WorkerEvent) :=
  connected 5 "SET a 1\n".toList ++ connected 6 "SET b 2\n".toList ++
    taken 0 ⟨.set, [['a'], ['1']]⟩ ++ taken 1 ⟨.set, [['b'], ['2']]⟩ ++ advanced 3 0 1 ++
    advanced 5 1 1 ++ advanced 2 0 1

def twoRecordsWritten : List WriterEvent :=
  [.log 0 (.set ['b'] ['2']), .push 0, .log 0 (.set ['a'] ['1']), .push 0, .stop, .requestStop,
    .collect, .write, .write, .endBatch false, .collect, .join, .close]

def oneRead : List (ServingEvent WorkerEvent) :=
  connected 5 "GET a\n".toList ++ taken 0 ⟨.get, [['a']]⟩ ++ advanced 5 0 9 ++ replied 0 3

theorem stored_value_read_after_restart :
    ∃ x os w wos x' os', (serving (fun _ => 0) (dispatchingBy fun _ => 0)).Run
        (BackMeets (Careful {['a'], ['b']})) (.start 2 (.fresh 32 0)) twoStored x os ∧
      aofWriter.Run StaysGood (.start []) twoRecordsWritten w wos ∧
      (serving (fun _ => 0) (dispatchingBy fun _ => 0)).Run (BackMeets (Confined {['a'], ['b']}))
        (.start 1 (.create (replay (fun _ => 0) (fun _ => ⟨0, 0⟩) (some w.file)
          (.create 32)).storage (some .running) 5)) oneRead x' os' ∧
      (∃ hist, let serial := Transducer.run (Episode.outcome fun _ => 0) hist x.back.dispatcher
        (∀ c, exchanges (notes c os') <+: exchangesOn c serial.1) ∧
        (∀ c, ((exchangesOn c serial.1).map Prod.fst).Sublist (extracted (notes c os'))) ∧
        (∀ k, x'.back.dispatcher.storage.lookup (fun _ => 0) k =
          serial.2.storage.lookup (fun _ => 0) k) ∧
        ((∀ a ∈ x'.back.activities, a = .idle) →
          ∀ c, exchanges (notes c os') = exchangesOn c serial.1)) ∧
      w.file = "SET b 2\nSET a 1\n".toList ∧
      exchanges (notes 0 os') = [(⟨.get, [['a']]⟩, "$1\n".toList)] :=
  ⟨_,_,_,_,_,_,Machine.run_of_exec (by decide +kernel),Machine.run_of_exec (by decide +kernel),
    Machine.run_of_exec (by decide +kernel),
    server_restart_unnoticed _ 32 2 1 0 5 _ {['a'], ['b']} (Machine.run_of_exec (by decide +kernel))
      (by decide +kernel) (Machine.run_of_exec (by decide +kernel)) (by decide +kernel)
      (by decide +kernel) (by decide +kernel) (Machine.run_of_exec (by decide +kernel))
      (by decide +kernel),by decide +kernel,by decide +kernel⟩

end CacheForge
