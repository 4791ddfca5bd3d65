import CacheForge.Server.Settling
import CacheForge.Server.Wakeups

namespace CacheForge

structure PooledServer where
  server : Server
  pool : PoolMonitor Task

inductive PooledEvent where
  | serve (e : Event)
  | manage (e : MonitorEvent Task)

def PooledEvent.ofServer : PooledEvent → Bool
  | .serve e => e.ofServer
  | .manage e => !e.isSpurious

def Server.submission (s : Server) : Option (Site × Bool × Task) :=
  match s.loop with
  | some (site, (out, .submitting cmd _)) => some (site, out, ⟨site.conn, cmd⟩)
  | _ => none

namespace PooledServer

def create (numThreads : Nat) (d : Dispatcher) : PooledServer :=
  ⟨.start numThreads d, .create numThreads 1⟩

-- The event loop is the only thread that calls `submit`.
def outside (x : PooledServer) : Bool := x.pool.submitters[0]? = some .idle

def runs (w : Nat) (x : PooledServer) : Bool :=
  match x.pool.workers[w]? with
  | some (.running _) => true
  | _ => false

def allows (x : PooledServer) : Event → Bool
  | .take _ => false
  | .dispatch w _ => x.runs w
  | .send w _ => x.runs w
  | .queue w => x.runs w
  | .clear w => x.runs w
  | .sweep _ _ _ => true
  | .loop => x.outside && x.server.submission.isNone
  | _ => x.outside

def serve (hash : Str → Nat) (e : Event) (x : PooledServer) : Option (PooledServer × List Out) :=
  if x.allows e then
    ((CacheForge.server hash).step x.server e).map fun r => ({ x with server := r.1 }, r.2)
  else none

def manage (e : MonitorEvent Task) (x : PooledServer) : Option PooledServer :=
  match x.pool.next? e with
  | none => none
  | some (pool, _) =>
      match e with
      | .call _ task =>
          if x.server.submission.map (fun p => p.2.2) = some task then some { x with pool := pool }
          else none
      | .push _ =>
          match x.server.submission with
          | some (site, out, _) => some ⟨x.server.visit site (some (out, .updating)), pool⟩
          | none => none
      | .pop w =>
          match x.pool.tasks with
          | task :: _ =>
              some ⟨x.server.setWorker w (some ⟨task.conn, .running task.cmd⟩), pool⟩
          | [] => none
      | .finish w =>
          if x.server.workers[w]? = some none then some { x with pool := pool } else none
      | _ => some { x with pool := pool }

def view (x : PooledServer) : Server := { x.server with tasks := x.pool.tasks }

end PooledServer

def pooledServer (hash : Str → Nat) : Machine PooledServer PooledEvent Out where
  step x e :=
    match e with
    | .serve e => x.serve hash e
    | .manage e => Machine.quiet (x.manage e)

namespace Server

variable {hash : Str → Nat} {s t : Server} {e : Event} {o : List Out}

theorem turn_queue (site : Site) {turn : Turn} (h : turn.submits = none) (q : List Task) :
    { s with tasks := q }.turn site turn = { s.turn site turn with tasks := q } := by
  obtain ⟨conn,next,closes,submits,registers⟩ := turn
  cases h
  cases closes <;> cases registers <;> rfl

theorem step_queue (htake : ∀ w, e ≠ .take w) (hloop : e = .loop → s.submission = none)
    (h : (server hash).step s e = some (t, o)) (q : List Task) :
    t.tasks = s.tasks ∧
      (server hash).step { s with tasks := q } e = some ({ t with tasks := q }, o) := by
  cases e with
  | take w => exact absurd rfl (htake w)
  | accept fd =>
    obtain ⟨hx,rfl⟩ := quietly_eq h
    unfold acceptConnection at hx
    split at hx <;> cases hx
    rename_i hl hfd
    exact ⟨rfl,by simp [server, quietly, acceptConnection, hl, hfd, addConnection]⟩
  | ready fd hup inp out =>
    obtain ⟨hx,rfl⟩ := quietly_eq h
    unfold handleEvent at hx
    split at hx
    · cases hx
    · rename_i hl
      split at hx
      · rename_i hhup
        cases hx
        exact ⟨rfl,by simp [server, quietly, handleEvent, hl, hhup, closeConnection]⟩
      · rename_i hhup
        split at hx <;> cases hx
        · rename_i hc
          exact ⟨rfl,by simp [server, quietly, handleEvent, hl, hhup, hc]⟩
        · rename_i hc
          exact ⟨rfl,by simp [server, quietly, handleEvent, hl, hhup, hc, visit]⟩
  | loop =>
    obtain ⟨hx,rfl⟩ := quietly_eq h
    unfold handleLoop at hx
    split at hx
    · rename_i site out stage hl
      obtain ⟨turn,hturn,rfl⟩ := Option.map_eq_some_iff.mp hx
      have hsubmits : turn.submits = none := by
        by_contra hne
        obtain ⟨cmd,commands,rfl⟩ := (loopTurn_spec hturn).2.2 hne
        simp [submission, hl] at hloop
      refine ⟨by simp [hsubmits],?_⟩
      rw [← turn_queue site hsubmits q]
      simp [server, quietly, handleLoop, hl, hturn]
    · cases hx
  | answer r =>
    simp only [server, handleSync] at h
    split at h
    · rename_i site out cmd commands hl
      split at h <;> cases h
      rename_i hf
      exact ⟨rfl,by simp [server, handleSync, hl, hf, visit]⟩
    · cases h
  | recv x =>
    simp only [server, handleRecv] at h
    split at h
    · rename_i site out hl
      split at h <;> cases h
      rename_i hp
      refine ⟨rfl,?_⟩
      simp only [socket] at hp
      simp [server, handleRecv, hl, socket, hp, setConn, visit]
    · cases h
  | flush x =>
    simp only [server, handleFlush] at h
    split at h
    · rename_i site out hl
      split at h <;> cases h
      rename_i hp
      refine ⟨rfl,?_⟩
      simp only [socket] at hp
      simp [server, handleFlush, hl, socket, hp, setConn, visit]
    · cases h
  | dispatch w r =>
    simp only [server, workerDispatch] at h
    split at h <;> cases h
    rename_i c cmd hw
    exact ⟨rfl,by simp [server, workerDispatch, hw, setWorker]⟩
  | send w x =>
    simp only [server, workerSend] at h
    split at h
    · rename_i c response n hw
      split at h <;> cases h
      rename_i hp
      refine ⟨rfl,?_⟩
      simp only [socket] at hp
      simp [server, workerSend, hw, socket, hp, setConn, setWorker]
    · cases h
  | queue w =>
    obtain ⟨hx,rfl⟩ := quietly_eq h
    unfold workerQueue at hx
    split at hx <;> cases hx
    rename_i c response n hw
    exact ⟨rfl,by simp [server, quietly, workerQueue, hw, setConn, setWorker]⟩
  | clear w =>
    obtain ⟨hx,rfl⟩ := quietly_eq h
    unfold workerClear at hx
    split at hx <;> cases hx
    rename_i c hw
    exact ⟨rfl,by simp [server, quietly, workerClear, hw, setConn, setWorker]⟩
  | sweep now i order =>
    cases h
    exact ⟨rfl,rfl⟩

end Server

namespace PooledServer

variable {hash : Str → Nat} {x y : PooledServer}

def Free (workers : List (Option Job)) (duties : List (Duty Task)) : Prop :=
  ∀ (w : Nat) duty, duties[w]? = some duty → duty.slot = .waiting → workers[w]? = some none

theorem Free.set {workers : List (Option Job)} {duties : List (Duty Task)} {w : Nat}
    {duty : Duty Task} (h : Free workers duties)
    (hd : duty.slot = .waiting → workers[w]? = some none) : Free workers (duties.set w duty) := by
  intro v d hv hslot
  rcases Machine.getElem?_set_cases hv with ⟨rfl,rfl⟩ | ⟨-,hv⟩
  · exact hd hslot
  · exact h v d hv hslot

structure Joined (x : PooledServer) : Prop where
  served : x.view.Sound
  managed : x.pool.Sound
  queue : x.server.tasks = []
  single : x.pool.submitters.length = 1
  asked : ∀ task, .entering task ∈ x.pool.submitters ∨ .inside task ∈ x.pool.submitters →
    ∃ site out, x.server.submission = some (site, out, task)
  staff : x.server.workers.length = x.pool.workers.length
  free : Free x.server.workers x.pool.workers

theorem joined_create (numThreads : Nat) (d : Dispatcher) : (create numThreads d).Joined := by
  refine ⟨Server.sound_start numThreads d,.create numThreads 1,rfl,rfl,?_,?_,?_⟩
  · simp [create, PoolMonitor.create]
  · simp [create, PoolMonitor.create, Server.start]
  · intro w duty hw _
    simp only [create, PoolMonitor.create, List.getElem?_replicate,
      Option.ite_none_right_eq_some] at hw
    simp [create, Server.start, hw.1]

theorem serve_cases {e : Event} {o : List Out} (h : x.serve hash e = some (y, o)) :
    x.allows e = true ∧ ∃ t, (CacheForge.server hash).step x.server e = some (t, o) ∧
      y = { x with server := t } := by
  unfold serve at h
  split at h
  · rename_i ha
    obtain ⟨⟨t,o'⟩,ht,hy⟩ := Option.map_eq_some_iff.mp h
    cases hy
    exact ⟨ha,t,ht,rfl⟩
  · cases h

theorem serve_view {e : Event} {o : List Out} {t : Server} (ha : x.allows e = true)
    (h : (CacheForge.server hash).step x.server e = some (t, o)) :
    t.tasks = x.server.tasks ∧
      (CacheForge.server hash).step x.view e = some ({ x with server := t }.view, o) := by
  refine Server.step_queue ?_ ?_ h x.pool.tasks
  · rintro w rfl
    cases ha
  · rintro rfl
    simpa [allows] using (Bool.and_eq_true_iff.mp ha).2

theorem Joined.outside_asked (h : x.Joined) (ho : x.outside = true) (task : Task) :
    ¬(.entering task ∈ x.pool.submitters ∨ .inside task ∈ x.pool.submitters) := by
  obtain ⟨sub,hsub⟩ := List.length_eq_one_iff.mp h.single
  simp only [outside, hsub, List.getElem?_cons_zero, Option.some.injEq, decide_eq_true_eq] at ho
  simp [hsub, ho]

theorem allows_worker {e : Event} {w : Nat} (ha : x.allows e = true) (he : e.worker = some w) :
    ∃ task, x.pool.workers[w]? = some (.running task) := by
  have hruns : x.runs w = true := by
    cases e with
    | take v => cases ha
    | dispatch v r | send v r | queue v | clear v =>
      cases he
      exact ha
    | _ => cases he
  unfold runs at hruns
  split at hruns
  · exact ⟨_,‹_›⟩
  · cases hruns

theorem Joined.serve {e : Event} {o : List Out} (h : x.Joined) (ha : x.allows e = true)
    {t : Server} (hstep : (CacheForge.server hash).step x.server e = some (t, o)) :
    Joined { x with server := t } := by
  obtain ⟨htasks,hview⟩ := serve_view ha hstep
  have hsound := (Server.step_projects h.served hview).sound h.served
  have hlength := Server.workers_length h.served hview
  refine ⟨hsound,h.managed,htasks.trans h.queue,h.single,?_,hlength.trans h.staff,?_⟩
  · intro task hask
    cases hw : e.worker with
    | some w =>
      have hloop := (Server.drops_worker hstep hw).2
      obtain ⟨site,out,hs⟩ := h.asked task hask
      exact ⟨site,out,by rw [← hs, Server.submission, Server.submission, hloop]⟩
    | none =>
      cases e with
      | sweep now i order =>
        cases hstep
        exact h.asked task hask
      | loop => exact absurd hask (h.outside_asked (Bool.and_eq_true_iff.mp ha).1 task)
      | take w | dispatch w r | send w r | queue w | clear w => cases hw
      | _ => exact absurd hask (h.outside_asked ha task)
  · cases hw : e.worker with
    | none =>
      have hsame := (Server.loop_step h.served hview hw).1
      intro w duty hduty hslot
      exact (congrArg (fun ws : List (Option Job) => ws[w]?) hsame).trans
        (h.free w duty hduty hslot)
    | some v =>
      obtain ⟨task,htask⟩ := allows_worker ha hw
      obtain ⟨-,-,slot,hset⟩ := Server.step_slot hstep hw
      intro w duty hduty hslot
      have hne : w ≠ v := by
        rintro rfl
        cases hduty.symm.trans htask
        cases hslot
      dsimp only
      rw [hset, List.getElem?_set_ne hne.symm]
      exact h.free w duty hduty hslot

theorem manage_next {e : MonitorEvent Task} (h : x.manage e = some y) :
    ∃ os, x.pool.next? e = some (y.pool, os) := by
  unfold manage at h
  split at h
  · cases h
  · rename_i q os hq
    refine ⟨os,hq.trans ?_⟩
    cases e with
    | call c task | finish w =>
      simp only [Option.ite_none_right_eq_some, Option.some.injEq] at h
      rw [← h.2]
    | push c | pop w =>
      dsimp only at h
      split at h <;> cases h
      rfl
    | _ =>
      cases h
      rfl

theorem Joined.at_submitter (h : x.Joined) {c : Nat} {sub : Submission Task}
    (hc : x.pool.submitters[c]? = some sub) : c = 0 ∧ x.pool.submitters = [sub] := by
  obtain ⟨sub₀,hsub⟩ := List.length_eq_one_iff.mp h.single
  rw [hsub] at hc ⊢
  cases c with
  | zero =>
    cases hc
    exact ⟨rfl,rfl⟩
  | succ c => simp at hc

section

variable {q : PoolMonitor Task}

theorem Joined.repool (h : x.Joined) (hq : q.Sound) (htasks : q.tasks = x.pool.tasks)
    (hsingle : q.submitters.length = 1)
    (hasked : ∀ task, .entering task ∈ q.submitters ∨ .inside task ∈ q.submitters →
      ∃ site out, x.server.submission = some (site, out, task))
    (hstaff : q.workers.length = x.pool.workers.length) (hfree : Free x.server.workers q.workers) :
    Joined { x with pool := q } := by
  have hview : { x with pool := q }.view = x.view := by rw [view, view, htasks]
  exact ⟨hview ▸ h.served,hq,h.queue,hsingle,hasked,h.staff.trans hstaff.symm,hfree⟩

theorem Joined.duty {w : Nat} {duty : Duty Task} (h : x.Joined) (hq : q.Sound)
    (htasks : q.tasks = x.pool.tasks) (hsub : q.submitters = x.pool.submitters)
    (hset : q.workers = x.pool.workers.set w duty)
    (hd : duty.slot = .waiting → x.server.workers[w]? = some none) :
    Joined { x with pool := q } := by
  refine h.repool hq htasks (hsub ▸ h.single) ?_ (by simp [hset]) (hset ▸ h.free.set hd)
  rw [hsub]
  exact h.asked

theorem Joined.submitter {c : Nat} {sub₀ sub : Submission Task} (h : x.Joined) (hq : q.Sound)
    (htasks : q.tasks = x.pool.tasks) (hc : x.pool.submitters[c]? = some sub₀)
    (hset : q.submitters = x.pool.submitters.set c sub)
    (hasked : ∀ task, sub = .entering task ∨ sub = .inside task →
      ∃ site out, x.server.submission = some (site, out, task))
    (hstaff : q.workers.length = x.pool.workers.length) (hfree : Free x.server.workers q.workers) :
    Joined { x with pool := q } := by
  obtain ⟨rfl,hone⟩ := h.at_submitter hc
  rw [hone] at hset
  refine h.repool hq htasks (by simp [hset]) ?_ hstaff hfree
  intro task hask
  exact hasked task (by simpa [hset, eq_comm] using hask)

end

theorem submission_loop {site : Site} {out : Bool} {task : Task} {s : Server}
    (h : s.submission = some (site, out, task)) :
    ∃ cmd commands, s.loop = some (site, (out, .submitting cmd commands)) ∧
      task = ⟨site.conn, cmd⟩ := by
  unfold Server.submission at h
  split at h
  · rename_i commands hl
    cases h
    exact ⟨_,commands,hl,rfl⟩
  · cases h

section

variable {w c : Nat} {task : Task} {tasks : List Task} {site : Site} {out : Bool}
  {q : PoolMonitor Task}

variable (hash) in
theorem push_view (hs : x.server.submission = some (site, out, task))
    (hq : q.tasks = x.pool.tasks ++ [task]) :
    (CacheForge.server hash).step x.view .loop =
      some (view ⟨x.server.visit site (some (out, .updating)), q⟩, []) := by
  obtain ⟨cmd,commands,hl,rfl⟩ := submission_loop hs
  simp [CacheForge.server, Server.quietly, Server.handleLoop, view, hl, loopTurn,
    Server.turn, Server.submit, Server.modifyFd, Server.setConn, Server.visit, hq]

variable (hash) in
theorem pop_view (hw : x.server.workers[w]? = some none) (htasks : x.pool.tasks = task :: tasks)
    (hq : q.tasks = tasks) :
    (CacheForge.server hash).step x.view (.take w) =
      some (view ⟨x.server.setWorker w (some ⟨task.conn, .running task.cmd⟩), q⟩, []) := by
  simp [CacheForge.server, Server.quietly, Server.take, view, hw, htasks, Server.setWorker, hq]

theorem Joined.push (hash : Str → Nat) (h : x.Joined)
    (hc : x.pool.submitters[c]? = some (.inside task))
    (hs : x.server.submission = some (site, out, task)) :
    Joined ⟨x.server.visit site (some (out, .updating)),
      { x.pool.setSubmitter c .pushed with tasks := x.pool.tasks ++ [task] }⟩ := by
  obtain ⟨rfl,hone⟩ := h.at_submitter hc
  refine ⟨?_,PoolMonitor.sound_step h.managed (.push hc),h.queue,?_,?_,h.staff,h.free⟩
  · exact Server.Projects.sound h.served (Server.step_projects h.served (push_view hash hs rfl))
  · simpa [PoolMonitor.setSubmitter] using h.single
  · simp [PoolMonitor.setSubmitter, hone]

theorem Joined.pop (hash : Str → Nat) (h : x.Joined) (hw : x.pool.workers[w]? = some .popping)
    (htasks : x.pool.tasks = task :: tasks) :
    Joined ⟨x.server.setWorker w (some ⟨task.conn, .running task.cmd⟩),
      { x.pool.setWorker w (.holding task) with tasks := tasks }⟩ := by
  have hnone := h.free w _ hw rfl
  refine ⟨?_,PoolMonitor.sound_step h.managed (.pop hw htasks),h.queue,h.single,h.asked,?_,?_⟩
  · exact Server.Projects.sound h.served
      (Server.step_projects h.served (pop_view hash hnone htasks rfl))
  · simpa [Server.setWorker, PoolMonitor.setWorker] using h.staff
  · intro v duty hv hslot
    rcases Machine.getElem?_set_cases hv with ⟨rfl,rfl⟩ | ⟨hne,hv⟩
    · cases hslot
    · rw [Server.setWorker, List.getElem?_set_ne hne]
      exact h.free v duty hv hslot

end

variable (hash) in
theorem Joined.manage {e : MonitorEvent Task} (h : x.Joined) (hstep : x.manage e = some y) :
    y.Joined ∧ (y.view = x.view ∨
      ∃ d, (CacheForge.server hash).step x.view d = some (y.view, [])) := by
  obtain ⟨os,hq⟩ := manage_next hstep
  have hmanaged := PoolMonitor.sound_step h.managed (PoolMonitor.step_cases hq)
  obtain ⟨server,pool⟩ := y
  simp only [PooledServer.manage, hq] at hstep
  cases PoolMonitor.step_cases hq with
  | call hc =>
    obtain ⟨hs,hy⟩ := Option.ite_none_right_eq_some.mp hstep
    obtain ⟨⟨site,out,task'⟩,hsub,rfl⟩ := Option.map_eq_some_iff.mp hs
    cases hy
    refine ⟨h.submitter hmanaged rfl hc rfl ?_ rfl h.free,.inl rfl⟩
    rintro task (hask | hask) <;> cases hask
    exact ⟨site,out,hsub⟩
  | @enter c task hc hfree =>
    cases hstep
    refine ⟨h.submitter hmanaged rfl hc rfl ?_ rfl h.free,.inl rfl⟩
    rintro t (hask | hask) <;> cases hask
    exact h.asked task (.inl (List.mem_of_getElem? hc))
  | @push c task hc =>
    obtain ⟨site,out,hs⟩ := h.asked task (.inr (List.mem_of_getElem? hc))
    simp only [hs] at hstep
    cases hstep
    exact ⟨h.push hash hc hs,.inr ⟨_,push_view hash hs rfl⟩⟩
  | leave hc | notifyNobody hc hnone =>
    cases hstep
    refine ⟨h.submitter hmanaged rfl hc rfl ?_ rfl h.free,.inl rfl⟩
    rintro task (hask | hask) <;> cases hask
  | notifyOne hc hw =>
    cases hstep
    refine ⟨h.submitter hmanaged rfl hc rfl ?_ List.length_set ?_,.inl rfl⟩
    · rintro task (hask | hask) <;> cases hask
    · exact h.free.set fun _ => h.free _ _ hw rfl
  | lock hw hduty hfree =>
    cases hstep
    have hslot := h.free _ _ hw (by rcases hduty with rfl | rfl <;> rfl)
    exact ⟨h.duty hmanaged rfl rfl rfl fun _ => hslot,.inl rfl⟩
  | sleep hw ht | proceed hw ht | spurious hw =>
    cases hstep
    exact ⟨h.duty hmanaged rfl rfl rfl fun _ => h.free _ _ hw rfl,.inl rfl⟩
  | @pop w task tasks hw htasks =>
    simp only [htasks] at hstep
    cases hstep
    exact ⟨h.pop hash hw htasks,.inr ⟨_,pop_view hash (h.free w _ hw rfl) htasks rfl⟩⟩
  | unlock hw =>
    cases hstep
    exact ⟨h.duty hmanaged rfl rfl rfl (fun hslot => by cases hslot),.inl rfl⟩
  | finish hw =>
    obtain ⟨hnone,hy⟩ := Option.ite_none_right_eq_some.mp hstep
    cases hy
    exact ⟨h.duty hmanaged rfl rfl rfl fun _ => hnone,.inl rfl⟩

variable (hash) in
theorem run_server {numThreads : Nat} {d : Dispatcher} {es : List PooledEvent} {os : List Out}
    (h : (pooledServer hash).Run Machine.anyStep (create numThreads d) es x os) :
    x.Joined ∧
      ∃ ds, (CacheForge.server hash).Run Machine.anyStep (.start numThreads d) ds x.view os := by
  obtain ⟨ds,s,hrun,hx,rfl⟩ := h.simulation (N := CacheForge.server hash) (Q := Machine.anyStep)
    (fun x s => x.Joined ∧ x.view = s) ⟨joined_create numThreads d,rfl⟩ (by
      rintro x s e y o ⟨hx,rfl⟩ - hstep
      cases e with
      | serve e =>
        obtain ⟨ha,t,ht,rfl⟩ := serve_cases hstep
        exact ⟨[e],_,.single trivial (serve_view ha ht).2,hx.serve ha ht,rfl⟩
      | manage e =>
        obtain ⟨hy,rfl⟩ := Machine.quiet_some hstep
        obtain ⟨hjoined,hsame | ⟨e',hmove⟩⟩ := hx.manage hash hy
        · exact ⟨[],_,.nil,hjoined,hsame⟩
        · exact ⟨[e'],_,.single trivial hmove,hjoined,rfl⟩)
  exact ⟨hx,ds,hrun⟩

variable (hash) in
theorem Joined.finish_moves {w : Nat} {task : Task} (h : x.Joined)
    (hw : x.pool.workers[w]? = some (.running task)) :
    ∃ e, e.ofServer = true ∧ ((pooledServer hash).step x e).isSome = true := by
  have hlt : w < x.server.workers.length := h.staff ▸ (List.getElem?_eq_some_iff.mp hw).1
  have hslot := List.getElem?_eq_getElem hlt
  cases hjob : x.server.workers[w] with
  | none =>
    rw [hjob] at hslot
    exact ⟨.manage (.finish w),rfl,by
      simp [pooledServer, Machine.quiet, PooledServer.manage, PoolMonitor.next?, hw, hslot]⟩
  | some job =>
    rw [hjob] at hslot
    obtain ⟨e,hworker,htake,hstep⟩ := Server.worker_enabled hash hslot
    have ha : x.allows e = true := by
      cases e with
      | take v => exact absurd rfl (htake v)
      | dispatch v r | send v r | queue v | clear v =>
        cases hworker
        simp [allows, runs, hw]
      | _ => cases hworker
    exact ⟨.serve e,Server.ofServer_worker hworker,by simpa [pooledServer, PooledServer.serve, ha]⟩

variable (hash) in
theorem Joined.pool_moves {e : MonitorEvent Task} {q : PoolMonitor Task} {os : List (PoolOut Task)}
    (h : x.Joined) (he : e.isOwn = true) (hq : x.pool.next? e = some (q, os)) :
    ∃ e, e.ofServer = true ∧ ((pooledServer hash).step x e).isSome = true := by
  have hmove : (x.manage e).isSome = true →
      ∃ e, e.ofServer = true ∧ ((pooledServer hash).step x e).isSome = true := by
    intro hm
    simp only [MonitorEvent.isOwn, Bool.and_eq_true] at he
    exact ⟨.manage e,he.2,by simpa [pooledServer, Machine.quiet] using hm⟩
  simp only [PooledServer.manage, hq] at hmove
  cases PoolMonitor.step_cases hq with
  | call hc | spurious hw => cases he
  | push hc =>
    obtain ⟨site,out,hs⟩ := h.asked _ (.inr (List.mem_of_getElem? hc))
    exact hmove (by simp [hs])
  | pop hw htasks => exact hmove (by simp [htasks])
  | finish hw => exact h.finish_moves hash hw
  | _ => exact hmove rfl

variable (hash) in
theorem Joined.loop_moves (h : x.Joined) (hidle : ∀ sub ∈ x.pool.submitters, sub = .idle)
    (hloop : x.server.loop ≠ none) :
    ∃ e, e.ofServer = true ∧ ((pooledServer hash).step x e).isSome = true := by
  have hfirst : x.pool.submitters[0]? = some .idle := by
    obtain ⟨sub,hsub⟩ := List.length_eq_one_iff.mp h.single
    rw [hsub, hidle sub (by simp [hsub])]
    rfl
  cases hs : x.server.submission with
  | some p =>
    obtain ⟨site,out,task⟩ := p
    refine ⟨.manage (.call 0 task),rfl,?_⟩
    simp [pooledServer, PooledServer.manage, Machine.quiet, PoolMonitor.next?, hfirst, hs]
  | none =>
    obtain ⟨⟨site,out,stage⟩,hl⟩ := Option.ne_none_iff_exists'.mp hloop
    obtain ⟨e,-,he,hstep⟩ : ∃ e, e.inner = true ∧ e.ofLoop = true ∧
        ((CacheForge.server hash).step x.view e).isSome = true := Server.turn_enabled h.served hl
    obtain ⟨⟨t,o⟩,ht⟩ := Option.isSome_iff_exists.mp hstep
    have htake : ∀ w, e ≠ .take w := by
      rintro w rfl
      cases he
    have hview : x.view.submission = none := hs
    have hserver := (Server.step_queue htake (fun _ => hview) ht x.server.tasks).2
    have ha : x.allows e = true := by
      cases e with
      | loop | answer r | recv c | flush c => simp [allows, outside, hfirst, hs]
      | _ => cases he
    refine ⟨.serve e,Server.ofServer_ofLoop he,?_⟩
    simp only [pooledServer, PooledServer.serve, ha, if_true, Option.isSome_map]
    exact Option.isSome_iff_exists.mpr ⟨_,hserver⟩

variable (hash) in
theorem Joined.progress (h : x.Joined) :
    (∃ e, e.ofServer = true ∧ ((pooledServer hash).step x e).isSome = true) ∨
      x.view.AtRest ∧ ∀ duty ∈ x.pool.workers, duty = .asleep := by
  by_cases hpool : ∃ e q os, e.isOwn = true ∧ x.pool.next? e = some (q, os)
  · obtain ⟨e,q,os,he,hq⟩ := hpool
    exact .inl (h.pool_moves hash he hq)
  · have hstuck : ∀ e : MonitorEvent Task, e.isOwn = true → x.pool.next? e = none := by
      intro e he
      by_contra hne
      obtain ⟨⟨q,os⟩,hq⟩ := Option.ne_none_iff_exists'.mp hne
      exact hpool ⟨e,q,os,he,hq⟩
    have hasleep := h.managed.all_asleep hstuck
    by_cases hloop : x.server.loop = none
    · refine .inr ⟨⟨hloop,h.managed.drained hstuck,?_⟩,hasleep⟩
      intro slot hslot
      obtain ⟨w,hw⟩ := List.getElem?_of_mem hslot
      have hlt : w < x.pool.workers.length := h.staff ▸ (List.getElem?_eq_some_iff.mp hw).1
      have hduty := List.getElem?_eq_getElem hlt
      have hfree := h.free w _ hduty (by rw [hasleep _ (List.getElem_mem hlt)]; rfl)
      exact Option.some.inj (hw.symm.trans hfree)
    · exact .inl (h.loop_moves hash (h.managed.all_idle hstuck) hloop)

end PooledServer

theorem pooled_server_refines_server (hash : Str → Nat) (numThreads : Nat) (d : Dispatcher)
    {es : List PooledEvent} {x : PooledServer} {os : List Out}
    (h : (pooledServer hash).Run Machine.anyStep (.create numThreads d) es x os) :
    (∃ ds, (server hash).Run Machine.anyStep (.start numThreads d) ds x.view os) ∧
      ((∃ e, e.ofServer = true ∧ ((pooledServer hash).step x e).isSome = true) ∨
        x.server.loop = none ∧ x.pool.tasks = [] ∧ (∀ duty ∈ x.pool.workers, duty = .asleep) ∧
          (∀ slot ∈ x.server.workers, slot = none) ∧ ∀ c, (x.server.conns c).inFlight = false) := by
  obtain ⟨hx,hrun⟩ := PooledServer.run_server hash h
  refine ⟨hrun,?_⟩
  rcases hx.progress hash with henabled | ⟨hrest,hasleep⟩
  · exact .inl henabled
  · exact .inr ⟨hrest.loop,hrest.tasks,hasleep,hrest.workers,hrest.landed hx.served⟩

def pooledPing : List PooledEvent :=
  [.manage (.lock 0), .manage (.test 0), .serve (.accept 5), .serve (.ready 5 false true false),
    .serve .loop, .serve (.recv (.bytes "PING\n".toList)), .serve .loop, .serve .loop,
    .manage (.call 0 ⟨0, ⟨.ping, []⟩⟩), .manage (.enter 0), .manage (.push 0), .manage (.leave 0),
    .manage (.notifyOne 0 (some 0)), .serve .loop, .serve .loop, .manage (.lock 0),
    .manage (.test 0), .manage (.pop 0), .manage (.unlock 0), .serve (.dispatch 0 ⟨0, 0⟩),
    .serve (.send 0 (.bytes 6)), .serve (.clear 0), .manage (.finish 0), .manage (.lock 0),
    .manage (.test 0)]

theorem pooled_ping_served :
    ∃ x os, (pooledServer (fun _ => 0)).Run Machine.anyStep (.create 1 idleServer.dispatcher)
        pooledPing x os ∧
      ((∃ ds, (server (fun _ => 0)).Run Machine.anyStep (.start 1 idleServer.dispatcher) ds
          x.view os) ∧
        ((∃ e, e.ofServer = true ∧ ((pooledServer (fun _ => 0)).step x e).isSome = true) ∨
          x.server.loop = none ∧ x.pool.tasks = [] ∧ (∀ duty ∈ x.pool.workers, duty = .asleep) ∧
            (∀ slot ∈ x.server.workers, slot = none) ∧
              ∀ c, (x.server.conns c).inFlight = false)) ∧
      sentBytes (notes 0 os) = pongResponse ∧ x.pool.workers = [.asleep] :=
  ⟨_,_,Machine.run_of_exec (by decide +kernel),
    pooled_server_refines_server _ 1 _ (Machine.run_of_exec (by decide +kernel)),
    by decide +kernel,by decide +kernel⟩

end CacheForge
