import CacheForge.Server.Projection

namespace CacheForge

namespace Server

theorem same_refl (s : Server) (c : Nat) : Same s s [] c := ⟨rfl,rfl,rfl⟩

theorem addConnection_tables {s : Server} (hs : s.Tables) (hl : s.loop = none) (fd : Nat) :
    (s.addConnection fd).Tables := by
  refine ⟨?_,?_,?_⟩
  · simp [addConnection, hs.kernel]
  · intro fd' c hc
    rcases eq_or_ne fd' fd with rfl | hfd
    · obtain rfl : s.accepted = c := by simpa [addConnection] using hc
      simp [addConnection, Connection.create]
    · obtain ⟨ha,hfc⟩ := hs.owner fd' c (by simpa [addConnection, hfd] using hc)
      refine ⟨Nat.lt_succ_of_lt ha,?_⟩
      simp [addConnection, ne_of_lt ha, hfc]
  · intro site p hp
    exact absurd (hl.symm.trans hp) (by simp)

theorem addConnection_link {s : Server} (hs : s.Sound) (hl : s.loop = none) (fd : Nat) :
    (s.addConnection fd).link s.accepted = ⟨.create fd, some false, none, none⟩ := by
  refine Link.ext ?_ ?_ ?_ ?_
  · simp [link, addConnection]
  · simp [link, registered, addConnection, Connection.create]
  · simp [link, stage, addConnection, hl]
  · have hb := congrArg Link.phase (hs.blank s.accepted le_rfl)
    exact hb

theorem addConnection_other {s : Server} {fd : Nat} (hco : s.connections fd = none) {c : Nat}
    (hc : c ≠ s.accepted) : (s.addConnection fd).link c = s.link c := by
  refine Link.ext ?_ ?_ rfl rfl
  · simp [link, addConnection, hc]
  · rcases eq_or_ne (s.conns c).fd fd with hfd | hfd
    · simp [link, registered, addConnection, hc, hfd, hco, Ne.symm hc]
    · simp [link, registered, addConnection, hc, hfd]

theorem accept_projects {s t : Server} {fd : Nat} (hs : s.Sound)
    (h : s.acceptConnection fd = some t) : Projects s t (.accept fd) [] := by
  cases hl : s.loop with
  | some p => simp [acceptConnection, hl] at h
  | none =>
    cases hf : s.fdTable fd with
    | some c => simp [acceptConnection, hl, hf] at h
    | none =>
      obtain rfl : s.addConnection fd = t := by simpa [acceptConnection, hl, hf] using h
      have hco : s.connections fd = none := by rw [← hs.kernel, hf]
      refine ⟨addConnection_tables hs.toTables hl fd,Nat.le_succ _,.inl ⟨fd,rfl,rfl⟩,via_nil s,
        .inr ⟨s.accepted,Nat.lt_succ_self _,?_,hs.single _,.silent,?_,trivial⟩⟩
      · intro c hc
        exact ⟨addConnection_other hco hc,rfl,rfl⟩
      · rw [addConnection_link hs hl]
        exact .accepted fd (hs.blank s.accepted le_rfl)

theorem closeConnection_registered_self {s : Server} {fd c : Nat} (h : (s.conns c).fd = fd) :
    (s.closeConnection fd).registered c = none := by
  simp [registered, closeConnection, h]

theorem closeConnection_registered {s : Server} {fd c : Nat} (h : s.connections fd ≠ some c) :
    (s.closeConnection fd).registered c = s.registered c := by
  rcases eq_or_ne (s.conns c).fd fd with hfd | hfd
  · simp [registered, closeConnection, hfd, h]
  · simp [registered, closeConnection, hfd]

theorem close_projects {s : Server} (hs : s.Sound) (hl : s.loop = none) (e : Event) (fd : Nat) :
    Projects s (s.closeConnection fd) e [] := by
  refine ⟨⟨?_,?_,?_⟩,le_refl _,.inr ⟨fun _ => rfl,.inr ⟨fd,rfl⟩⟩,via_nil s,?_⟩
  · simp [closeConnection, hs.kernel]
  · intro fd' c hc
    rcases eq_or_ne fd' fd with rfl | hfd
    · simp [closeConnection] at hc
    · exact hs.owner fd' c (by simpa [closeConnection, hfd] using hc)
  · intro site p hp
    exact absurd (hl.symm.trans hp) (by simp)
  · cases hc : s.connections fd with
    | none =>
      refine .inl (fun c => ⟨Link.ext rfl ?_ rfl rfl,rfl,rfl⟩)
      exact closeConnection_registered (by simp [hc])
    | some d =>
      obtain ⟨hd,hfd⟩ := hs.owner fd d hc
      refine .inr ⟨d,hd,?_,hs.single d,.silent,?_,trivial⟩
      · intro c hcd
        refine ⟨Link.ext rfl ?_ rfl rfl,rfl,rfl⟩
        exact closeConnection_registered (by simpa [hc] using Ne.symm hcd)
      · have ht : (s.closeConnection fd).link d = { s.link d with interest := none } :=
          Link.ext rfl (closeConnection_registered_self hfd) rfl rfl
        rw [ht]
        exact .hungUp (by simp [link, stage, hl])

theorem visit_stage (s : Server) (site : Site) (next : Option Pending) (c : Nat) :
    (s.visit site next).stage c = if site.conn = c then next else none := by
  cases next <;> simp [stage, visit]

theorem visit_projects {s : Server} (hs : s.Sound) (hl : s.loop = none) {fd d : Nat}
    (hc : s.connections fd = some d) (e : Event) (inp out : Bool) :
    Projects s (s.visit ⟨fd, d⟩ (onReady inp out)) e [] := by
  have hst (c : Nat) : s.stage c = none := by simp [stage, hl]
  refine ⟨⟨hs.kernel,hs.owner,?_⟩,le_refl _,.inr ⟨fun _ => rfl,.inl rfl⟩,via_nil s,
    .inr ⟨d,(hs.owner fd d hc).1,?_,hs.single d,.silent,?_,trivial⟩⟩
  · intro site p hp
    simp only [visit, Option.map_eq_some_iff, Prod.mk.injEq] at hp
    obtain ⟨q,-,rfl,rfl⟩ := hp
    exact hc
  · intro c hcd
    refine ⟨Link.ext rfl rfl ?_ rfl,rfl,rfl⟩
    refine (visit_stage ..).trans ?_
    rw [if_neg (Ne.symm hcd)]
    exact (hst c).symm
  · have ht : (s.visit ⟨fd, d⟩ (onReady inp out)).link d =
        { s.link d with stage := onReady inp out } := by
      refine Link.ext rfl rfl ?_ rfl
      exact (visit_stage ..).trans (if_pos rfl)
    rw [ht]
    exact .ready inp out (hst d)

theorem event_projects {s t : Server} {fd : Nat} {hup inp out : Bool} (hs : s.Sound)
    (h : s.handleEvent fd hup inp out = some t) : Projects s t (.ready fd hup inp out) [] := by
  cases hl : s.loop with
  | some p => simp [handleEvent, hl] at h
  | none =>
    cases hup with
    | true =>
      obtain rfl : s.closeConnection fd = t := by simpa [handleEvent, hl] using h
      exact close_projects hs hl _ fd
    | false =>
      cases hc : s.connections fd with
      | none =>
        obtain rfl : s = t := by simpa [handleEvent, hl, hc] using h
        exact ⟨hs.toTables,le_refl _,.inr ⟨fun _ => rfl,.inl rfl⟩,via_nil s,.inl (same_refl s)⟩
      | some d =>
        obtain rfl : s.visit ⟨fd, d⟩ (onReady inp out) = t := by
          simpa [handleEvent, hl, hc] using h
        exact visit_projects hs hl hc _ inp out

theorem loop_projects {s t : Server} (hs : s.Sound) (h : s.handleLoop = some t) :
    Projects s t .loop [] := by
  cases hl : s.loop with
  | none => simp [handleLoop, hl] at h
  | some p =>
    obtain ⟨site,out,stage⟩ := p
    simp only [handleLoop, hl, Option.map_eq_some_iff] at h
    obtain ⟨turn,ht,rfl⟩ := h
    have hst : (s.link site.conn).stage = some (out, stage) := stage_self hl
    have hstep := Link.turn_step (hs.sound site.conn) hst ht
    obtain ⟨hfd,hcl,hsub⟩ := loopTurn_spec ht
    refine turn_projects hs hl hfd hcl (via_nil s) (fun _ _ => rfl) (a := .silent) trivial ?_ hstep
    intro hs'
    obtain ⟨cmd,commands,rfl⟩ := hsub hs'
    have hsd := hs.sound site.conn
    simp only [Link.Sound, hst, Option.map_some] at hsd
    rw [hs.phases, hsd.1]
    rfl

theorem sync_unreachable {hash : Str → Nat} {s : Server} (r : Readings) (hs : s.Sound) :
    s.handleSync hash r = none := by
  unfold handleSync
  split
  · rename_i site out cmd commands hl
    have hst : (s.link site.conn).stage = some (out, .processing (cmd :: commands)) :=
      stage_self hl
    have hsd := hs.sound site.conn
    simp only [Link.Sound, hst, Option.map_some] at hsd
    have hf : (s.conns site.conn).inFlight = false := hsd.2
    simp [hf]
  · rfl

theorem recv_traces {s : Server} {site : Site} {p : Pending} (hl : s.loop = some (site, p))
    (x : Received) (sock : Option Nat) :
    s.Traces (.recv x) site.conn (.recv (x.through sock)) := by
  cases sock with
  | none => trivial
  | some k =>
    cases x with
    | bytes chunk => exact ⟨rfl,by simp [reader, hl]⟩
    | eof | again | error => trivial

theorem recv_projects {s t : Server} {o : List Out} {x : Received} (hs : s.Sound)
    (h : s.handleRecv x = some (t, o)) : Projects s t (.recv x) o := by
  unfold handleRecv at h
  split at h
  · rename_i site out hl
    dsimp only at h
    split at h
    · rename_i ho
      simp only [Option.some.injEq, Prod.mk.injEq] at h
      obtain ⟨rfl,rfl⟩ := h
      refine turn_projects hs hl (t := .moveTo (some (out, .received _)) _) (readAndParse_fd ..)
        (fun h => nomatch h) (via_recv s _ _ _) ?_ (recv_traces hl x (s.socket site.conn))
        (fun h => absurd rfl h) ?_
      · intro c hc
        rw [notes_recv, if_neg (Ne.symm hc)]
      · rw [notes_recv, if_pos rfl]
        exact .recv out _ (stage_self hl) ho
    · cases h
  · cases h

theorem flush_projects {s t : Server} {o : List Out} {x : Sent} (hs : s.Sound)
    (h : s.handleFlush x = some (t, o)) : Projects s t (.flush x) o := by
  unfold handleFlush at h
  split at h
  · rename_i site out hl
    dsimp only at h
    split at h
    · rename_i ho
      simp only [Option.some.injEq, Prod.mk.injEq] at h
      obtain ⟨rfl,rfl⟩ := h
      refine turn_projects hs hl (t := .moveTo (some (false, .flushed)) _)
        (flushWriteBuffer_fd ..) (fun h => nomatch h) (via_sent s _ _ _) (a := .silent) ?_ trivial
        (fun h => absurd rfl h) ?_
      · intro c hc
        rw [notes_sent, if_neg (Ne.symm hc)]
      · rw [notes_sent, if_pos rfl]
        exact .flush out _ (stage_self hl) ho
    · cases h
  · cases h

def started (w : Nat) (task : Task) (tasks : List Task) (s : Server) : Server :=
  { s with tasks := tasks }.setWorker w (some ⟨task.conn, .running task.cmd⟩)

theorem started_phases {s : Server} {w : Nat} {task : Task} {tasks : List Task}
    (hw : s.workers[w]? = some none) (ht : s.tasks = task :: tasks) (c : Nat) :
    ∃ a b, s.phases c = (Task.phase c task).toList ++ (a ++ b) ∧
      (s.started w task tasks).phases c =
        a ++ (Job.phase c (some ⟨task.conn, .running task.cmd⟩)).toList ++ b := by
  obtain ⟨a,b,ha,hb⟩ := phases_setWorker (s := { s with tasks := tasks }) hw
    (some ⟨task.conn, .running task.cmd⟩) c
  refine ⟨a,b,?_,hb⟩
  have hp : s.phases c = (Task.phase c task).toList ++
      ({ s with tasks := tasks } : Server).phases c := by
    cases h : Task.phase c task <;> simp [phases, ht, h]
  rw [hp, ha]
  simp [Job.phase]

theorem started_self {s : Server} (hs : s.Sound) {w : Nat} {task : Task} {tasks : List Task}
    (hw : s.workers[w]? = some none) (ht : s.tasks = task :: tasks) :
    s.phases task.conn = [.queued task.cmd] ∧
      (s.started w task tasks).phases task.conn = [.working (.running task.cmd)] := by
  obtain ⟨a,b,ha,hb⟩ := started_phases hw ht task.conn
  have hl := hs.single task.conn
  simp only [Task.phase, if_true, Option.toList_some] at ha
  rw [ha] at hl
  simp only [List.length_append, List.length_singleton] at hl
  obtain ⟨rfl,rfl⟩ := nil_of_length (a := a) (b := b) (by omega)
  exact ⟨ha,by simpa [Job.phase] using hb⟩

theorem started_other {s : Server} {w : Nat} {task : Task} {tasks : List Task}
    (hw : s.workers[w]? = some none) (ht : s.tasks = task :: tasks) {c : Nat}
    (hc : c ≠ task.conn) : (s.started w task tasks).phases c = s.phases c := by
  obtain ⟨a,b,ha,hb⟩ := started_phases hw ht c
  rw [ha, hb]
  simp [Task.phase, Job.phase, Ne.symm hc]

theorem take_projects {s t : Server} {w : Nat} (hs : s.Sound) (h : s.take w = some t) :
    Projects s t (.take w) [] := by
  unfold take at h
  split at h
  · rename_i task tasks hw hts
    obtain rfl : s.started w task tasks = t := Option.some.inj h
    obtain ⟨hp,hq⟩ := started_self hs hw hts
    have hph : (s.link task.conn).phase = some (.queued task.cmd) := congrArg List.head? hp
    refine ⟨⟨hs.kernel,hs.owner,hs.site⟩,le_refl _,.inr ⟨fun _ => rfl,.inl rfl⟩,via_nil s,
      .inr ⟨task.conn,?_,?_,?_,.silent,?_,trivial⟩⟩
    · by_contra hk
      rw [hs.blank task.conn (not_lt.mp hk)] at hph
      cases hph
    · intro c hc
      have hpc := started_other hw hts hc
      exact ⟨Link.ext rfl rfl rfl (congrArg List.head? hpc),hpc,rfl⟩
    · simp [hq]
    · have hlink : (s.started w task tasks).link task.conn =
          { s.link task.conn with phase := some (.working (.running task.cmd)) } :=
        Link.ext rfl rfl rfl (congrArg List.head? hq)
      rw [hlink]
      exact .take task.cmd hph
  · cases h

theorem dispatch_projects {hash : Str → Nat} {s t : Server} {o : List Out} {w : Nat} {r : Readings}
    (hs : s.Sound) (h : s.workerDispatch hash w r = some (t, o)) :
    Projects s t (.dispatch w r) o := by
  unfold workerDispatch at h
  split at h
  · rename_i d cmd hw
    simp only [Option.some.injEq, Prod.mk.injEq] at h
    obtain ⟨rfl,rfl⟩ := h
    have hp := worker_projects hs (e := .dispatch w r) hw (x := s.conns d) rfl
      (some (sendLoop (s.dispatcher.dispatch hash r cmd).1 0))
      (via_dispatched s d cmd (s.dispatcher.dispatch hash r cmd).1) ?_ (a := .silent) trivial ?_
    · rw [setConn_self] at hp
      exact hp.dispatcher ⟨fun _ => rfl,.inl rfl⟩ (s.dispatcher.dispatch hash r cmd).2
    · intro c hc
      simp [notes, Out.note, Ne.symm hc]
    · intro hph
      have hn : notes d [.dispatched d cmd (s.dispatcher.dispatch hash r cmd).1] =
          [.dispatched cmd (s.dispatcher.dispatch hash r cmd).1] := by
        simp [notes, Out.note]
      rw [hn]
      exact .dispatch cmd _ hph
  · cases h

theorem send_traces {s : Server} {w d : Nat} {p : Progress} (hw : s.workers[w]? = some (some ⟨d, p⟩))
    (x : Sent) (sock : Option Nat) : s.Traces (.send w x) d (.send (x.through sock)) := by
  cases sock with
  | none => trivial
  | some k =>
    cases x with
    | bytes count => exact ⟨w,rfl,by simp [sender, hw]⟩
    | again | error => trivial

theorem send_projects {s t : Server} {o : List Out} {w : Nat} {x : Sent} (hs : s.Sound)
    (h : s.workerSend w x = some (t, o)) : Projects s t (.send w x) o := by
  unfold workerSend at h
  split at h
  · rename_i d response totalSent hw
    dsimp only at h
    split at h
    · rename_i ho
      simp only [Option.some.injEq, Prod.mk.injEq] at h
      obtain ⟨rfl,rfl⟩ := h
      refine worker_projects hs hw (sendCall_fd ..) (some _) (via_sent s _ _ _) ?_
        (send_traces hw x (s.socket d)) ?_
      · intro c hc
        rw [notes_sent, if_neg (Ne.symm hc)]
      · intro hph
        rw [notes_sent, if_pos rfl]
        exact .send response totalSent _ hph ho
    · cases h
  · cases h

theorem queue_projects {s t : Server} {w : Nat} (hs : s.Sound) (h : s.workerQueue w = some t) :
    Projects s t (.queue w) [] := by
  unfold workerQueue at h
  split at h
  · rename_i d response totalSent hw
    simp only [Option.some.injEq] at h
    subst h
    refine worker_projects hs hw (x := (s.conns d).queueResponse _) rfl (some .clearing)
      (via_nil s) (fun _ _ => rfl) (a := .silent) trivial ?_
    intro hph
    exact .queue response totalSent hph
  · cases h

theorem clear_projects {s t : Server} {w : Nat} (hs : s.Sound) (h : s.workerClear w = some t) :
    Projects s t (.clear w) [] := by
  unfold workerClear at h
  split at h
  · rename_i d hw
    simp only [Option.some.injEq] at h
    subst h
    refine worker_projects hs hw (x := (s.conns d).clearInFlight) rfl none (via_nil s)
      (fun _ _ => rfl) (a := .silent) trivial ?_
    intro hph
    exact .clear hph
  · cases h

theorem quietly_eq {t : Server} {o : List Out} {x : Option Server}
    (h : quietly x = some (t, o)) : x = some t ∧ o = [] :=
  Machine.quiet_some h

theorem step_projects {hash : Str → Nat} {s t : Server} {e : Event} {o : List Out} (hs : s.Sound)
    (h : (server hash).step s e = some (t, o)) : Projects s t e o := by
  cases e with
  | accept fd =>
    obtain ⟨hx,rfl⟩ := quietly_eq h
    exact accept_projects hs hx
  | ready fd hup inp out =>
    obtain ⟨hx,rfl⟩ := quietly_eq h
    exact event_projects hs hx
  | loop =>
    obtain ⟨hx,rfl⟩ := quietly_eq h
    exact loop_projects hs hx
  | answer r => exact absurd ((sync_unreachable r hs).symm.trans h) (by simp)
  | recv x => exact recv_projects hs h
  | flush x => exact flush_projects hs h
  | take w =>
    obtain ⟨hx,rfl⟩ := quietly_eq h
    exact take_projects hs hx
  | dispatch w r => exact dispatch_projects hs h
  | send w x => exact send_projects hs h
  | queue w =>
    obtain ⟨hx,rfl⟩ := quietly_eq h
    exact queue_projects hs hx
  | clear w =>
    obtain ⟨hx,rfl⟩ := quietly_eq h
    exact clear_projects hs hx
  | sweep now i order =>
    obtain ⟨rfl,rfl⟩ : s.sweep now i order = t ∧ [] = o := by simpa [server] using h
    exact ⟨⟨hs.kernel,hs.owner,hs.site⟩,le_refl _,.inr ⟨fun _ => rfl,.inl rfl⟩,via_nil s,
      .inl (same_refl s)⟩

section

variable {hash : Str → Nat} {numThreads : Nat} {d : Dispatcher} {P : Server → Event → Prop}
  {es : List Event} {s : Server} {os : List Out}

theorem run_sound (h : (server hash).Run P (start numThreads d) es s os) : s.Sound := by
  refine h.invariant (fun s _ => s.Sound) (sound_start numThreads d) ?_
  intro s os e t o hs _ hstep
  exact (step_projects hs hstep).sound hs

theorem run_link (c : Nat) (I : Link → List Note → Prop) (Q : Link → Act → Prop)
    (hQ : ∀ s e a, P s e → s.Traces e c a → Q (s.link c) a) (h₀ : I .blank [])
    (hI : ∀ v a w ns ms, v.Sound → I v ns → Q v a → LinkStep v a w ms → I w (ns ++ ms))
    (h : (server hash).Run P (start numThreads d) es s os) : I (s.link c) (notes c os) := by
  refine (h.invariant (fun s os => s.Sound ∧ I (s.link c) (notes c os)) ?_ ?_).2
  · have hs := sound_start numThreads d
    refine ⟨hs,?_⟩
    rw [hs.blank c (Nat.zero_le c)]
    exact h₀
  · intro s os e t o ⟨hs,hi⟩ hg hstep
    have hp := step_projects hs hstep
    refine ⟨hp.sound hs,?_⟩
    rw [notes_append]
    rcases hp.cases c with hc | ⟨-,-,a,ha,htr⟩
    · rw [hc.1, hc.2.2, List.append_nil]
      exact hi
    · exact hI _ _ _ _ _ (hs.sound c) hi (hQ s e a hg htr) ha

end

end Server

end CacheForge
