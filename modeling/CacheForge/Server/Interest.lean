import CacheForge.Server.Simulation

namespace CacheForge

namespace Link

def watched (v : Link) : Bool :=
  match v.stage with
  | none => v.interest ≠ some false
  | some (false, .reading) => v.interest ≠ some false
  | some (false, .modifying want) => want
  | some _ => true

def Served (v : Link) : Prop := v.conn.writeBuffer ≠ [] → v.watched = true

theorem watched_onReady {v : Link} (inp out : Bool) (h : v.stage = none) (hw : v.watched = true) :
    { v with stage := onReady inp out }.watched = true := by
  have hi : v.interest ≠ some false := by simpa [watched, h] using hw
  cases inp <;> cases out <;> simp [watched, onReady, afterRead, hi]

theorem watched_afterRead (conn : Connection) {interest : Option Bool} (out : Bool)
    (phase : Option Phase) (h : out = false → interest ≠ some false) :
    (⟨conn, interest, afterRead out, phase⟩ : Link).watched = true := by
  cases out with
  | false => simp [watched, afterRead, h rfl]
  | true => rfl

theorem writeBuffer_sendCall (response : Str) (totalSent : Nat) (o : Sent) (c : Connection) :
    (sendCall response totalSent o c).2.writeBuffer = c.writeBuffer := by
  cases o <;> rfl

theorem Served.step {v w : Link} {a : Act} {ms : List Note} (hv : v.Served)
    (hq : ∀ response totalSent, v.phase = some (.working (.queueing response totalSent)) →
      w.phase ≠ v.phase → v.watched = true)
    (h : LinkStep v a w ms) : w.Served := by
  cases h with
  | accepted fd h => exact fun hb => absurd rfl hb
  | hungUp h => exact fun _ => by simp [watched, h]
  | ready inp out h => exact fun hb => watched_onReady inp out h (hv hb)
  | busy out h hf =>
    refine fun hb => watched_afterRead _ out _ fun ho => ?_
    have hw := hv hb
    subst ho
    simpa [watched, h] using hw
  | free out h hf | recv out o h ho | parsed out commands h he | processed out h
  | claimed out cmd commands h hf | submitted out cmd commands h hp =>
    exact fun _ => by cases out <;> rfl
  | broken out commands h he | dropped out h he => exact fun _ => rfl
  | inspected out h =>
    intro hb
    cases out with
    | false => simpa [watched, Connection.wantWrite] using hb
    | true => rfl
  | modified out want h =>
    refine fun hb => watched_afterRead _ out _ fun ho => ?_
    have hw := hv hb
    subst ho
    have hwant : want = true := by simpa [watched, h] using hw
    simp [hwant]
  | flush out o h ho | kept out h he => exact fun _ => rfl
  | take cmd h | dispatch cmd response h | clear h => exact hv
  | send response totalSent o h ho =>
    intro hb
    rw [writeBuffer_sendCall] at hb
    exact hv hb
  | queue response totalSent h =>
    exact fun _ => hq response totalSent h (by simp [h])

end Link

def Event.worker : Event → Option Nat
  | .take w => some w
  | .dispatch w _ => some w
  | .send w _ => some w
  | .queue w => some w
  | .clear w => some w
  | _ => none

namespace Server

variable {hash : Str → Nat} {s t : Server} {e : Event} {o : List Out}

theorem step_slot {w : Nat} (h : (server hash).step s e = some (t, o)) (he : e.worker = some w) :
    t.connections = s.connections ∧ t.interest = s.interest ∧
      ∃ slot, t.workers = s.workers.set w slot := by
  cases e with
  | take v =>
    cases he
    obtain ⟨hx,-⟩ := quietly_eq h
    unfold take at hx
    split at hx <;> cases hx
    exact ⟨rfl,rfl,_,rfl⟩
  | dispatch v r =>
    cases he
    simp only [server, workerDispatch] at h
    split at h <;> cases h
    exact ⟨rfl,rfl,_,rfl⟩
  | send v x =>
    cases he
    simp only [server, workerSend] at h
    split at h
    · split at h <;> cases h
      exact ⟨rfl,rfl,_,rfl⟩
    · cases h
  | queue v =>
    cases he
    obtain ⟨hx,-⟩ := quietly_eq h
    unfold workerQueue at hx
    split at hx <;> cases hx
    exact ⟨rfl,rfl,_,rfl⟩
  | clear v =>
    cases he
    obtain ⟨hx,-⟩ := quietly_eq h
    unfold workerClear at hx
    split at hx <;> cases hx
    exact ⟨rfl,rfl,_,rfl⟩
  | accept fd | ready fd hup inp out | loop | answer r | recv x | flush x
  | sweep now i order => cases he

def Registered (s : Server) : Prop := ∀ fd, s.connections fd ≠ none → s.interest fd ≠ none

theorem Registered.close (hs : s.Registered) (fd : Nat) : (s.closeConnection fd).Registered := by
  intro fd' hc
  rcases eq_or_ne fd' fd with rfl | hne
  · simp [closeConnection] at hc
  · simpa [closeConnection, hne] using hs fd' (by simpa [closeConnection, hne] using hc)

theorem Registered.turn (hs : s.Registered) {site : Site} (turn : Turn)
    (ho : s.connections site.fd ≠ none) : (s.turn site turn).Registered := by
  intro fd hc
  rw [turn_connections] at hc
  rw [turn_interest]
  rcases eq_or_ne fd site.fd with rfl | hne
  · cases hcl : turn.closes with
    | true => simp [hcl] at hc
    | false => simp [hs _ ho]
  · have hfd : s.connections fd ≠ none := by
      split at hc
      · simpa [hne] using hc
      · exact hc
    simpa [hne] using hs fd hfd

theorem loop_step (hb : s.Sound) (h : (server hash).step s e = some (t, o))
    (he : e.worker = none) : t.workers = s.workers ∧ (s.Registered → t.Registered) := by
  cases e with
  | accept fd =>
    obtain ⟨hx,-⟩ := quietly_eq h
    unfold acceptConnection at hx
    split at hx <;> cases hx
    refine ⟨rfl,fun hs fd' hc => ?_⟩
    rcases eq_or_ne fd' fd with rfl | hne
    · simp [addConnection]
    · simpa [addConnection, hne] using hs fd' (by simpa [addConnection, hne] using hc)
  | ready fd hup inp out =>
    obtain ⟨hx,-⟩ := quietly_eq h
    unfold handleEvent at hx
    split at hx
    · cases hx
    · split at hx
      · cases hx
        exact ⟨rfl,fun hs => hs.close fd⟩
      · split at hx <;> cases hx <;> exact ⟨rfl,id⟩
  | loop =>
    obtain ⟨hx,-⟩ := quietly_eq h
    unfold handleLoop at hx
    split at hx
    · rename_i site out stage hl
      obtain ⟨turn,-,rfl⟩ := Option.map_eq_some_iff.mp hx
      exact ⟨turn_workers ..,fun hs => hs.turn turn (by simp [hb.site site _ hl])⟩
    · cases hx
  | answer r => exact absurd ((sync_unreachable r hb).symm.trans h) (by simp)
  | recv x =>
    simp only [server, handleRecv] at h
    split at h
    · split at h <;> cases h
      exact ⟨rfl,id⟩
    · cases h
  | flush x =>
    simp only [server, handleFlush] at h
    split at h
    · split at h <;> cases h
      exact ⟨rfl,id⟩
    · cases h
  | sweep now i order =>
    cases h
    exact ⟨rfl,id⟩
  | take w | dispatch w r | send w x | queue w | clear w => cases he

theorem Registered.step (hs : s.Registered) (hb : s.Sound)
    (h : (server hash).step s e = some (t, o)) : t.Registered := by
  cases hw : e.worker with
  | none => exact (loop_step hb h hw).2 hs
  | some w =>
    obtain ⟨hc,hi,-⟩ := step_slot h hw
    intro fd hfd
    rw [hi]
    exact hs fd (hc ▸ hfd)

theorem working_slot {c : Nat} {p : Progress} (h : (s.link c).phase = some (.working p)) :
    ∃ w : Nat, s.workers[w]? = some (some ⟨c, p⟩) := by
  have hm : Phase.working p ∈ s.phases c := List.mem_of_mem_head? h
  rcases List.mem_append.mp hm with hm | hm
  · obtain ⟨task,-,ht⟩ := List.mem_filterMap.mp hm
    simp [Task.phase] at ht
  · obtain ⟨slot,hslot,hj⟩ := List.mem_filterMap.mp hm
    cases slot with
    | none => cases hj
    | some job =>
      obtain ⟨d,q⟩ := job
      obtain ⟨rfl,rfl⟩ : d = c ∧ q = p := by simpa [Job.phase] using hj
      exact List.mem_iff_getElem?.mp hslot

theorem Sound.working {w c : Nat} {p : Progress} (hs : s.Sound)
    (h : s.workers[w]? = some (some ⟨c, p⟩)) : (s.link c).phase = some (.working p) := by
  have hm : Phase.working p ∈ s.phases c :=
    List.mem_append_right _ (List.mem_filterMap.mpr
      ⟨_,List.mem_of_getElem? h,by simp [Job.phase]⟩)
  rw [hs.phases c] at hm
  exact Option.mem_toList.mp hm

theorem queueing_kept {w c : Nat} {response : Str} {totalSent : Nat} (hb : s.Sound)
    (h : (server hash).step s e = some (t, o))
    (hw : s.workers[w]? = some (some ⟨c, .queueing response totalSent⟩)) (he : e ≠ .queue w) :
    t.workers[w]? = some (some ⟨c, .queueing response totalSent⟩) := by
  cases hv : e.worker with
  | none => rw [(loop_step hb h hv).1, hw]
  | some v =>
    obtain ⟨-,-,slot,ht⟩ := step_slot h hv
    rcases eq_or_ne v w with rfl | hne
    · cases e with
      | take u =>
        cases hv
        simp [server, take, quietly, hw] at h
      | dispatch u r =>
        cases hv
        simp [server, workerDispatch, hw] at h
      | send u x =>
        cases hv
        simp [server, workerSend, hw] at h
      | clear u =>
        cases hv
        simp [server, workerClear, quietly, hw] at h
      | queue u =>
        cases hv
        exact absurd rfl he
      | accept fd | ready fd hup inp out | loop | answer r | recv x | flush x
      | sweep now i order => cases hv
    · rw [ht, List.getElem?_set_ne hne, hw]

def Timely (c : Nat) (s : Server) : Event → Prop
  | .queue w => s.sender w = some c → (s.link c).watched = true
  | _ => True

instance (c : Nat) (s : Server) : DecidablePred (Timely c s)
  | .queue _ => inferInstanceAs (Decidable (_ → _))
  | .accept _ | .ready _ _ _ _ | .loop | .answer _ | .recv _ | .flush _ | .take _ | .dispatch _ _
  | .send _ _ | .clear _ | .sweep _ _ _ => isTrue trivial

theorem served_step {c : Nat} (hs : s.Sound) (hv : (s.link c).Served) (hq : s.Timely c e)
    (h : (server hash).step s e = some (t, o)) : (t.link c).Served := by
  have hp := step_projects hs h
  rcases hp.cases c with hsame | ⟨-,-,a,hstep,-⟩
  · rw [hsame.1]
    exact hv
  · refine hv.step ?_ hstep
    intro response totalSent hph hne
    obtain ⟨w,hw⟩ := working_slot hph
    obtain rfl : e = .queue w := by
      by_contra he
      exact hne (((hp.sound hs).working (queueing_kept hs h hw he)).trans hph.symm)
    exact hq (by simp [sender, hw])

end Server

theorem queued_in_time_watched (hash : Str → Nat) (numThreads : Nat) (d : Dispatcher) (c : Nat)
    {es : List Event} {s : Server} {os : List Out}
    (h : (server hash).Run (Server.Timely c) (.start numThreads d) es s os)
    (hopen : s.connections (s.conns c).fd = some c) (hloop : s.loop = none)
    (hbuffer : (s.conns c).writeBuffer ≠ []) : s.interest (s.conns c).fd = some true := by
  obtain ⟨hs,hr,hv⟩ : s.Sound ∧ s.Registered ∧ (s.link c).Served := by
    refine h.invariant (fun s _ => s.Sound ∧ s.Registered ∧ (s.link c).Served) ?_ ?_
    · refine ⟨Server.sound_start numThreads d,?_,?_⟩
      · intro fd hfd
        exact absurd rfl hfd
      · intro hb
        exact absurd rfl hb
    · intro s os e t o ⟨hs,hr,hv⟩ hq hstep
      exact ⟨(Server.step_projects hs hstep).sound hs,hr.step hs hstep,
        Server.served_step hs hv hq hstep⟩
  have hw := hv hbuffer
  have hne : s.interest (s.conns c).fd ≠ some false := by
    simpa [Link.watched, Server.link, Server.stage, Server.registered, hloop, hopen] using hw
  have hsome := hr (s.conns c).fd (by simp [hopen])
  cases hi : s.interest (s.conns c).fd with
  | none => exact absurd hi hsome
  | some b =>
    cases b with
    | false => exact absurd hi hne
    | true => rfl

def pongKept : List Event :=
  [.accept 5, .ready 5 false true false, .loop, .recv (.bytes "PING\n".toList), .loop, .loop, .loop,
    .take 0, .dispatch 0 ⟨0, 0⟩, .send 0 .again, .queue 0, .clear 0, .loop, .loop]

theorem early_pong_watched :
    ∃ s os, (server (fun _ => 0)).Run (Server.Timely 0) (.start 1 (.create (.create 48) none 0))
        pongKept s os ∧ s.interest (s.conns 0).fd = some true ∧
      (s.conns 0).writeBuffer = "+PONG\n".toList ∧ (s.conns 0).inFlight = false :=
  ⟨_,_,Machine.run_of_exec (by decide +kernel),
    queued_in_time_watched _ _ _ 0 (Machine.run_of_exec (by decide +kernel)) (by decide +kernel)
      (by decide +kernel) (by decide +kernel),by decide +kernel⟩

def pongStranded : List Event :=
  [.accept 5, .ready 5 false true false, .loop, .recv (.bytes "PING\n".toList), .loop, .loop, .loop,
    .loop, .loop, .take 0, .dispatch 0 ⟨0, 0⟩, .send 0 .again, .queue 0, .clear 0]

theorem late_pong_stranded :
    ∃ s os, (server (fun _ => 0)).Run Machine.anyStep (.start 1 (.create (.create 48) none 0))
        pongStranded s os ∧ s.connections (s.conns 0).fd = some 0 ∧ s.loop = none ∧
      (s.conns 0).inFlight = false ∧ (s.conns 0).hasError = false ∧
      (s.conns 0).writeBuffer = "+PONG\n".toList ∧ s.interest (s.conns 0).fd = some false :=
  ⟨_,_,Machine.run_of_exec (by decide +kernel),by decide +kernel⟩

end CacheForge
