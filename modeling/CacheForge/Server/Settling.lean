import CacheForge.Server.InFlight
import CacheForge.Server.Output
import CacheForge.Server.Pipeline
import CacheForge.Server.Stopping

namespace CacheForge

def Out.answer : Out → Option Str
  | .dispatched _ _ response => some response
  | _ => none

def Event.ofServer : Event → Bool
  | .accept _ => false
  | .ready _ _ _ _ => false
  | .sweep _ _ _ => false
  | _ => true

def Event.isReady : Event → Bool
  | .ready _ _ _ _ => true
  | _ => false

def Out.replied (o : Out) : Nat := (o.answer.map List.length).getD 0

def Stage.brings : Stage → Nat
  | .reading => 5
  | .receiving => 5
  | .received _ => 5
  | .processing _ => 5
  | .answering _ _ => 5
  | .submitting _ _ => 5
  | _ => 0

def Pending.brings (p : Pending) : Nat := p.2.brings

def Progress.effort : Progress → Nat
  | .running _ => 4
  | .sending response totalSent => response.length - totalSent + 3
  | .queueing _ _ => 2
  | .clearing => 1

def slotEffort (slot : Option Job) : Nat := (slot.map fun job => job.progress.effort).getD 0

@[simp] theorem slotEffort_none : slotEffort none = 0 := rfl

@[simp] theorem slotEffort_some (c : Nat) (p : Progress) : slotEffort (some ⟨c, p⟩) = p.effort := rfl

@[simp] theorem effort_running (cmd : Command) : (Progress.running cmd).effort = 4 := rfl

@[simp] theorem effort_queueing (response : Str) (n : Nat) :
    (Progress.queueing response n).effort = 2 := rfl

@[simp] theorem effort_clearing : Progress.clearing.effort = 1 := rfl

theorem brings_afterRead (out : Bool) : ((afterRead out).map Pending.brings).getD 0 = 0 := by
  cases out <;> rfl

theorem brings_turn {out : Bool} {stage : Stage} {c : Connection} {t : Turn}
    (h : loopTurn out stage c = some t) :
    (t.next.map Pending.brings).getD 0 + 5 * t.submits.toList.length ≤ stage.brings := by
  have hafter := brings_afterRead out
  cases stage with
  | receiving | writing => cases h
  | answering | submitting | updating =>
    cases h
    simp [Turn.moveTo, Pending.brings, Stage.brings]
  | modifying want =>
    cases h
    simp [hafter]
  | reading | received commands | flushed =>
    simp only [loopTurn] at h
    split at h <;> cases h <;> simp [Turn.moveTo, Turn.close, Pending.brings, Stage.brings, hafter]
  | processing commands =>
    cases commands with
    | nil =>
      cases h
      simp [Turn.moveTo, Pending.brings, Stage.brings]
    | cons cmd commands =>
      cases hf : c.inFlight with
      | true => simp [loopTurn, Connection.trySetInFlight, hf] at h
      | false =>
        simp only [loopTurn, Connection.trySetInFlight, hf] at h
        cases h
        simp [Turn.moveTo, Pending.brings, Stage.brings]

theorem effort_sendLoop (response : Str) (n : Nat) :
    (sendLoop response n).effort ≤ response.length - n + 3 := by
  unfold sendLoop
  split <;> simp [Progress.effort]

theorem effort_sendCall {response : Str} {n : Nat} {o : Sent} {c : Connection}
    (h : o.possible (response.drop n) = true) :
    (sendCall response n o c).1.effort < (Progress.sending response n).effort := by
  cases o with
  | bytes count =>
    have hsend := effort_sendLoop response (n + count)
    simp only [Sent.possible, decide_eq_true_eq, List.length_drop] at h
    simp only [sendCall, Progress.effort] at hsend ⊢
    omega
  | again | error => simp [sendCall, Progress.effort]

namespace Server

variable {hash : Str → Nat} {s t : Server} {e : Event} {o : List Out}

def brings (s : Server) : Nat := ((s.loop.map Prod.snd).map Pending.brings).getD 0

def work (s : Server) : Nat := 5 * s.tasks.length + (s.workers.map slotEffort).sum

def load (s : Server) : Nat := s.effort + s.brings + s.work

theorem load_same (hl : t.loop = s.loop) (ht : t.tasks = s.tasks) (hw : t.workers = s.workers) :
    t.load = s.load := by
  simp only [load, effort, brings, work, hl, ht, hw]

theorem load_worker {w : Nat} {slot slot' : Option Job} (h : s.workers[w]? = some slot)
    (hl : t.loop = s.loop) (ht : t.tasks = s.tasks) (hw : t.workers = s.workers.set w slot') :
    t.load + slotEffort slot = s.load + slotEffort slot' := by
  obtain ⟨frame,hold,hnew⟩ := Machine.sum_set slotEffort h slot'
  simp only [load, effort, brings, work, hl, ht, hw, hold, hnew]
  omega

theorem load_take {w : Nat} (h : s.take w = some t) : t.load + 1 = s.load := by
  unfold take at h
  split at h
  · rename_i task tasks hw htasks
    cases h
    have hload := load_worker (t := { s with tasks := tasks }.setWorker w
      (some ⟨task.conn, .running task.cmd⟩)) (s := { s with tasks := tasks }) hw rfl rfl rfl
    have hrest : ({ s with tasks := tasks } : Server).load + 5 = s.load := by
      simp only [load, effort, brings, work, htasks, List.length_cons]
      omega
    simp only [slotEffort_none, slotEffort_some, effort_running] at hload
    omega
  · cases h

theorem load_dispatch {w : Nat} {r : Readings} (h : s.workerDispatch hash w r = some (t, o)) :
    t.load + 1 ≤ s.load + (o.map Out.replied).sum := by
  unfold workerDispatch at h
  split at h
  · rename_i c cmd hw
    generalize s.dispatcher.dispatch hash r cmd = reply at h
    obtain ⟨response,d⟩ := reply
    cases h
    have hload := load_worker (t := { s with dispatcher := d }.setWorker w
      (some ⟨c, sendLoop response 0⟩)) hw rfl rfl rfl
    have hsend := effort_sendLoop response 0
    simp only [slotEffort_some, effort_running] at hload
    simp only [List.map_cons, List.map_nil, List.sum_cons, List.sum_nil, Out.replied, Out.answer,
      Option.map_some, Option.getD_some]
    omega
  · cases h

theorem load_send {w : Nat} {x : Sent} (h : s.workerSend w x = some (t, o)) :
    t.load + 1 ≤ s.load := by
  simp only [workerSend] at h
  split at h
  · rename_i c response n hw
    split at h
    · rename_i hp
      have hsend := effort_sendCall (c := s.conns c) hp
      generalize sendCall response n (x.through (s.socket c)) (s.conns c) = sent at h hsend
      cases h
      have hload := load_worker (t := (s.setConn c sent.2).setWorker w (some ⟨c, sent.1⟩))
        hw rfl rfl rfl
      simp only [slotEffort_some] at hload
      omega
    · cases h
  · cases h

theorem load_queue {w : Nat} (h : s.workerQueue w = some t) : t.load + 1 = s.load := by
  unfold workerQueue at h
  split at h
  · rename_i c response n hw
    cases h
    have hload := load_worker (t := (s.setConn c ((s.conns c).queueResponse
      (response.drop n))).setWorker w (some ⟨c, .clearing⟩)) hw rfl rfl rfl
    simp only [slotEffort_some, effort_queueing, effort_clearing] at hload
    omega
  · cases h

theorem load_clear {w : Nat} (h : s.workerClear w = some t) : t.load + 1 = s.load := by
  unfold workerClear at h
  split at h
  · rename_i c hw
    cases h
    have hload := load_worker (t := (s.setConn c (s.conns c).clearInFlight).setWorker w none)
      hw rfl rfl rfl
    simp only [slotEffort_some, slotEffort_none, effort_clearing] at hload
    omega
  · cases h

theorem brings_loop (h : s.handleLoop = some t) :
    t.brings + t.work ≤ s.brings + s.work := by
  unfold handleLoop at h
  split at h
  · rename_i site out stage hl
    obtain ⟨turn,hturn,rfl⟩ := Option.map_eq_some_iff.mp h
    have hless := brings_turn hturn
    have htasks : (turn.submits.map (Task.mk site.conn)).toList.length =
        turn.submits.toList.length := by cases turn.submits <;> rfl
    have hnext : (s.turn site turn).brings = (turn.next.map Pending.brings).getD 0 := by
      rw [brings, turn_loop]
      cases turn.next <;> rfl
    have hstage : s.brings = stage.brings := by
      rw [brings, hl]
      rfl
    simp only [hnext, hstage, work, turn_tasks, turn_workers, List.length_append, htasks]
    omega
  · cases h

theorem brings_ready {fd : Nat} {hup inp out : Bool} (h : s.handleEvent fd hup inp out = some t) :
    s.loop = none ∧ t.brings ≤ 5 ∧ t.work = s.work := by
  unfold handleEvent at h
  split at h
  · cases h
  · rename_i hl
    refine ⟨hl,?_⟩
    split at h
    · cases h
      exact ⟨by simp [brings, closeConnection, hl],rfl⟩
    · split at h <;> cases h
      · exact ⟨by simp [brings, hl],rfl⟩
      · refine ⟨?_,rfl⟩
        cases inp <;> cases out <;> simp [brings, visit, onReady, afterRead, Pending.brings,
          Stage.brings]

theorem load_step (hs : s.Sound) (h : (server hash).step s e = some (t, o)) :
    t.load + e.ofServer.toNat ≤ s.load + 16 * e.isReady.toNat + (o.map Out.replied).sum := by
  cases e with
  | accept fd =>
    obtain ⟨hx,-⟩ := quietly_eq h
    unfold acceptConnection at hx
    split at hx <;> cases hx
    have hsame : (s.addConnection fd).load = s.load := load_same rfl rfl rfl
    simp only [hsame, Event.ofServer, Bool.toNat_false]
    omega
  | ready fd hup inp out =>
    obtain ⟨hx,-⟩ := quietly_eq h
    obtain ⟨hl,hbrings,hwork⟩ := brings_ready hx
    have heffort := EventLoop.effort_client hx hl
    simp only [load, Event.ofServer, Event.isReady, Bool.toNat_false, Bool.toNat_true, hwork]
    omega
  | loop =>
    have heffort := effort_step hs rfl h
    obtain ⟨hx,-⟩ := quietly_eq h
    have hbrings := brings_loop hx
    simp only [load, Event.ofServer, Event.ofLoop, Bool.toNat_true] at heffort ⊢
    omega
  | answer r => exact absurd ((sync_unreachable r hs).symm.trans h) (by simp)
  | recv x =>
    have heffort := effort_step hs rfl h
    have hrest : t.brings + t.work = s.brings + s.work := by
      simp only [server, handleRecv] at h
      split at h
      · rename_i site out hl
        split at h <;> cases h
        simp [brings, work, visit, setConn, hl, Pending.brings, Stage.brings]
      · cases h
    simp only [load, Event.ofServer, Event.ofLoop, Bool.toNat_true] at heffort ⊢
    omega
  | flush x =>
    have heffort := effort_step hs rfl h
    have hrest : t.brings + t.work = s.brings + s.work := by
      simp only [server, handleFlush] at h
      split at h
      · rename_i site out hl
        split at h <;> cases h
        simp [brings, work, visit, setConn, hl, Pending.brings, Stage.brings]
      · cases h
    simp only [load, Event.ofServer, Event.ofLoop, Bool.toNat_true] at heffort ⊢
    omega
  | take w =>
    have hload := load_take (quietly_eq h).1
    simp only [Event.ofServer, Bool.toNat_true]
    omega
  | dispatch w r =>
    have hload := load_dispatch h
    simp only [Event.ofServer, Bool.toNat_true]
    omega
  | send w x =>
    have hload := load_send h
    simp only [Event.ofServer, Bool.toNat_true]
    omega
  | queue w =>
    have hload := load_queue (quietly_eq h).1
    simp only [Event.ofServer, Bool.toNat_true]
    omega
  | clear w =>
    have hload := load_clear (quietly_eq h).1
    simp only [Event.ofServer, Bool.toNat_true]
    omega
  | sweep now i order =>
    cases h
    have hsame : (s.sweep now i order).load = s.load := load_same rfl rfl rfl
    simp only [hsame, Event.ofServer, Bool.toNat_false]
    omega

structure AtRest (s : Server) : Prop where
  loop : s.loop = none
  tasks : s.tasks = []
  workers : ∀ slot ∈ s.workers, slot = none

theorem AtRest.phases (h : s.AtRest) (c : Nat) : s.phases c = [] := by
  rw [Server.phases, h.tasks, List.filterMap_nil, List.nil_append]
  refine List.filterMap_eq_nil_iff.mpr fun slot hm => ?_
  rw [h.workers slot hm]
  rfl

theorem AtRest.link (h : s.AtRest) (c : Nat) :
    (s.link c).phase = none ∧ (s.link c).stage = none := by
  simp [Server.link, h.phases c, Server.stage, h.loop]

theorem workers_length (hs : s.Sound) (h : (server hash).step s e = some (t, o)) :
    t.workers.length = s.workers.length := by
  cases hw : e.worker with
  | none => rw [(loop_step hs h hw).1]
  | some w =>
    obtain ⟨-,-,slot,hset⟩ := step_slot h hw
    rw [hset, List.length_set]

theorem AtRest.landed (h : s.AtRest) (hs : s.Sound) (c : Nat) : (s.conns c).inFlight = false := by
  obtain ⟨hphase,hstage⟩ := h.link c
  have hsound := hs.sound c
  simp only [Link.Sound, hphase, hstage, Option.map_none, Option.isSome_none] at hsound
  exact hsound

variable (hash) in
theorem worker_enabled {w : Nat} {job : Job} (h : s.workers[w]? = some (some job)) :
    ∃ e, e.worker = some w ∧ (∀ v, e ≠ .take v) ∧ ((server hash).step s e).isSome = true := by
  obtain ⟨c,p⟩ := job
  cases p with
  | running cmd => exact ⟨.dispatch w ⟨0, 0⟩,rfl,by simp,by simp [server, workerDispatch, h]⟩
  | sending response n =>
    refine ⟨.send w .error,rfl,by simp,?_⟩
    simp [server, workerSend, h, Sent.through, Sent.possible]
  | queueing response n => exact ⟨.queue w,rfl,by simp,by simp [server, quietly, workerQueue, h]⟩
  | clearing => exact ⟨.clear w,rfl,by simp,by simp [server, quietly, workerClear, h]⟩

theorem ofServer_worker {w : Nat} (h : e.worker = some w) : e.ofServer = true := by
  cases e <;> first | rfl | cases h

theorem ofServer_ofLoop (h : e.ofLoop = true) : e.ofServer = true := by
  cases e <;> first | rfl | cases h

variable (hash) in
theorem Sound.progress (hs : s.Sound) (hw : s.workers ≠ []) :
    s.AtRest ∨ ∃ e, e.ofServer = true ∧ ((server hash).step s e).isSome = true := by
  cases hl : s.loop with
  | some visit =>
    obtain ⟨site,out,stage⟩ := visit
    obtain ⟨e,-,he,hstep⟩ := turn_enabled hs hl
    exact .inr ⟨e,ofServer_ofLoop he,hstep⟩
  | none =>
    by_cases hbusy : ∃ job, some job ∈ s.workers
    · obtain ⟨job,hjob⟩ := hbusy
      obtain ⟨w,hw⟩ := List.getElem?_of_mem hjob
      obtain ⟨e,he,-,hstep⟩ := worker_enabled hash hw
      exact .inr ⟨e,ofServer_worker he,hstep⟩
    · have hidle : ∀ slot ∈ s.workers, slot = none := by
        intro slot hm
        cases slot with
        | none => rfl
        | some job => exact absurd ⟨job,hm⟩ hbusy
      cases ht : s.tasks with
      | nil => exact .inl ⟨hl,ht,hidle⟩
      | cons task tasks =>
        obtain ⟨slot,rest,hcons⟩ := List.exists_cons_of_ne_nil hw
        have hfirst : s.workers[0]? = some none := by
          rw [hcons, hidle slot (by simp [hcons])]
          rfl
        exact .inr ⟨.take 0,rfl,by simp [server, quietly, take, hfirst, ht]⟩

end Server

theorem Server.run_load {hash : Str → Nat} {numThreads : Nat} {d : Dispatcher} {es : List Event}
    {s : Server} {os : List Out}
    (h : (server hash).Run Machine.anyStep (.start numThreads d) es s os) :
    s.workers ≠ [] ∧ es.countP Event.ofServer + s.load ≤
      16 * es.countP Event.isReady + (os.map Out.replied).sum := by
  induction h with
  | nil =>
    refine ⟨?_,by simp [load, effort, brings, work, start]⟩
    simp only [start]
    split <;> simp_all
  | snoc h _ hstep ih =>
    obtain ⟨hw,hle⟩ := ih
    have hs := run_sound h
    have hload := load_step hs hstep
    have hlength := workers_length hs hstep
    refine ⟨List.ne_nil_of_length_pos (hlength ▸ List.length_pos_of_ne_nil hw),?_⟩
    rw [Machine.countP_snoc, Machine.countP_snoc, List.map_append, List.sum_append]
    omega

theorem server_settles (hash : Str → Nat) (numThreads : Nat) (d : Dispatcher) {es : List Event}
    {s : Server} {os : List Out}
    (h : (server hash).Run Machine.anyStep (.start numThreads d) es s os) :
    es.countP Event.ofServer ≤ 16 * es.countP Event.isReady + (os.map Out.replied).sum ∧
      ((∃ e, e.ofServer = true ∧ ((server hash).step s e).isSome = true) ∨
        s.loop = none ∧ s.tasks = [] ∧ (∀ slot ∈ s.workers, slot = none) ∧
          ∀ c, (s.conns c).inFlight = false) := by
  have hs := Server.run_sound h
  obtain ⟨hw,hle⟩ := Server.run_load h
  refine ⟨by omega,?_⟩
  rcases hs.progress hash hw with hrest | henabled
  · exact .inr ⟨hrest.loop,hrest.tasks,hrest.workers,hrest.landed hs⟩
  · exact .inl henabled

def pingQueued : List Event :=
  [.accept 5, .ready 5 false true false, .loop, .recv (.bytes "PING\n".toList), .loop, .loop,
    .loop, .loop, .loop, .take 0, .dispatch 0 ⟨0, 0⟩, .send 0 (.bytes 2), .send 0 .again, .queue 0,
    .clear 0]

theorem queued_ping_settles :
    ∃ s os, (server (fun _ => 0)).Run Machine.anyStep idleServer pingQueued s os ∧
      (pingQueued.countP Event.ofServer ≤
          16 * pingQueued.countP Event.isReady + (os.map Out.replied).sum ∧
        ((∃ e, e.ofServer = true ∧ ((server (fun _ => 0)).step s e).isSome = true) ∨
          s.loop = none ∧ s.tasks = [] ∧ (∀ slot ∈ s.workers, slot = none) ∧
            ∀ c, (s.conns c).inFlight = false)) ∧
      s.loop = none ∧ s.tasks = [] ∧ s.workers = [none] :=
  ⟨_,_,Machine.run_of_exec (by decide +kernel),
    server_settles _ 1 _ (Machine.run_of_exec (by decide +kernel)),by decide +kernel⟩

structure Link.Accounted (v : Link) (ns : List Note) : Prop where
  short : (heldOnLoop v.stage).length ≤ 1
  heard : v.conn.hasError = false → dispatched ns ++ v.held = extracted ns
  told : .failed ∉ ns → sentBytes ns ++ v.pending = (responses ns).flatten

theorem Link.Accounted.step {v w : Link} {a : Act} {ns ms : List Note} (h : v.Accounted ns)
    (hline : v.SingleLine a) (hdrained : v.Drained a) (hstep : LinkStep v a w ms) :
    w.Accounted (ns ++ ms) := by
  refine ⟨link_short hstep hline h.short,?_,?_⟩
  · intro hw
    obtain ⟨lost,heq,hnone⟩ := link_flow hstep
    rw [hnone hw h.short, List.append_nil] at heq
    rw [extracted_append, dispatched_append]
    exact Machine.flow_append (h.heard (Link.hasError_step hstep hw)) heq
  · intro hn
    simp only [List.mem_append, not_or] at hn
    rw [sentBytes_append, responses_append, List.flatten_append]
    exact Machine.flow_append (h.told hn.1) (link_output hstep hdrained hn.2)

theorem responses_length (ns : List Note) : (responses ns).length = (dispatched ns).length := by
  induction ns with
  | nil => rfl
  | cons n ns ih =>
    cases n <;> simpa [responses, dispatched, List.filterMap_cons, Note.response, Note.command]
      using ih

theorem settled_server_answered (hash : Str → Nat) (numThreads : Nat) (d : Dispatcher)
    {es : List Event} {s : Server} {os : List Out} (c : Nat)
    (h : (server hash).Run (fun s e => SingleLine c s e ∧ Drained c s e) (.start numThreads d)
      es s os)
    (hloop : s.loop = none) (htasks : s.tasks = []) (hworkers : ∀ slot ∈ s.workers, slot = none)
    (herror : (s.conns c).hasError = false) (hfailed : .failed c ∉ os) :
    dispatched (notes c os) = extracted (notes c os) ∧
      (responses (notes c os)).length = (extracted (notes c os)).length ∧
      sentBytes (notes c os) ++ (s.conns c).writeBuffer = (responses (notes c os)).flatten := by
  have hacc : (s.link c).Accounted (notes c os) := by
    refine Server.run_link c Link.Accounted (fun v a => v.SingleLine a ∧ v.Drained a) ?_ ?_ ?_ h
    · exact fun _ _ _ hg ht => ⟨hg.1.link ht,hg.2.link ht⟩
    · exact ⟨Nat.zero_le 1,fun _ => rfl,fun _ => rfl⟩
    · exact fun v a w ns ms _ hv hg hstep => hv.step hg.1 hg.2 hstep
  have hrest : s.AtRest := ⟨hloop,htasks,hworkers⟩
  obtain ⟨hphase,hstage⟩ := hrest.link c
  have hheld : (s.link c).held = [] := by simp [Link.held, hphase, hstage, heldOnLoop]
  have hpending : (s.link c).pending = (s.conns c).writeBuffer := by
    rw [Link.pending, Link.sending, hphase]
    exact List.append_nil _
  have hheard := hacc.heard herror
  rw [hheld, List.append_nil] at hheard
  have htold := hacc.told (failed_notes hfailed)
  rw [hpending] at htold
  exact ⟨hheard,by rw [responses_length, hheard],htold⟩

theorem queued_ping_answered :
    ∃ s os, (server (fun _ => 0)).Run (fun s e => SingleLine 0 s e ∧ Drained 0 s e) idleServer
        pingQueued s os ∧
      (dispatched (notes 0 os) = extracted (notes 0 os) ∧
        (responses (notes 0 os)).length = (extracted (notes 0 os)).length ∧
        sentBytes (notes 0 os) ++ (s.conns 0).writeBuffer = (responses (notes 0 os)).flatten) ∧
      sentBytes (notes 0 os) = "+P".toList ∧ (s.conns 0).writeBuffer = "ONG\n".toList :=
  ⟨_,_,Machine.run_of_exec (by decide +kernel),
    settled_server_answered _ 1 _ 0 (Machine.run_of_exec (by decide +kernel)) (by decide +kernel)
      (by decide +kernel) (by decide +kernel) (by decide +kernel) (by decide +kernel),
    by decide +kernel⟩

end CacheForge
