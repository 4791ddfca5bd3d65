import CacheForge.Server.Batches

namespace CacheForge

def Event.ofLoop : Event → Bool
  | .loop => true
  | .answer _ => true
  | .recv _ => true
  | .flush _ => true
  | _ => false

namespace LoopEvent

def ofLoop : LoopEvent → Bool
  | .stop => false
  | .destroy _ => false
  | .visit e => e.ofLoop
  | _ => true

def isAccept : LoopEvent → Bool
  | .accept (some _) => true
  | _ => false

def isWait : LoopEvent → Bool
  | .wait _ => true
  | _ => false

end LoopEvent

def Stage.effort : Stage → Nat
  | .reading => 7
  | .receiving => 6
  | .received _ => 5
  | .processing _ => 4
  | .answering _ _ => 0
  | .submitting _ _ => 3
  | .updating => 2
  | .modifying _ => 1
  | .writing => 4
  | .flushed => 3

def Pending.effort (p : Pending) : Nat := p.2.effort + if p.1 then 4 else 0

def Server.effort (s : Server) : Nat :=
  match s.loop with
  | some (_, p) => Pending.effort p
  | none => 0

theorem effort_afterRead (out : Bool) :
    ((afterRead out).map Pending.effort).getD 0 ≤ if out then 4 else 0 := by
  cases out <;> decide

theorem effort_onReady (inp out : Bool) :
    ((onReady inp out).map Pending.effort).getD 0 ≤ 11 := by
  cases inp <;> cases out <;> decide

theorem effort_turn {out : Bool} {stage : Stage} {c : Connection} {t : Turn}
    (hstage : ∀ response commands, stage ≠ .answering response commands)
    (h : loopTurn out stage c = some t) :
    (t.next.map Pending.effort).getD 0 < Pending.effort (out, stage) := by
  have hafter := effort_afterRead out
  cases stage with
  | receiving | writing => cases h
  | answering response commands => exact absurd rfl (hstage response commands)
  | reading =>
    simp only [loopTurn] at h
    split at h <;> cases h
    · simp only [Turn.moveTo, Pending.effort, Stage.effort] at hafter ⊢
      omega
    · simp [Turn.moveTo, Pending.effort, Stage.effort]
  | received commands =>
    simp only [loopTurn] at h
    split at h <;> cases h <;> simp [Turn.moveTo, Turn.close, Pending.effort, Stage.effort]
  | processing commands =>
    cases commands with
    | nil =>
      cases h
      simp [Turn.moveTo, Pending.effort, Stage.effort]
    | cons cmd commands =>
      cases hf : c.inFlight with
      | true => simp [loopTurn, Connection.trySetInFlight, hf] at h
      | false =>
        simp only [loopTurn, Connection.trySetInFlight, hf] at h
        cases h
        simp [Turn.moveTo, Pending.effort, Stage.effort]
  | submitting cmd commands =>
    cases h
    simp [Pending.effort, Stage.effort]
  | updating =>
    cases h
    simp [Turn.moveTo, Pending.effort, Stage.effort]
  | modifying want =>
    cases h
    simp only [Pending.effort, Stage.effort] at hafter ⊢
    omega
  | flushed =>
    simp only [loopTurn] at h
    split at h <;> cases h
    · simp [Turn.close, Pending.effort, Stage.effort]
    · simp [Turn.moveTo, Pending.effort, Stage.effort]
      omega

namespace Server

variable {hash : Str → Nat} {s t : Server} {e : Event} {o : List Out}

theorem effort_eq (s : Server) : s.effort = ((s.loop.map Prod.snd).map Pending.effort).getD 0 := by
  unfold effort
  cases s.loop <;> rfl

theorem Sound.unanswering (hs : s.Sound) {site : Site} {out : Bool} {stage : Stage}
    (hl : s.loop = some (site, (out, stage))) (response : Str) (commands : List Str) :
    stage ≠ .answering response commands := by
  rintro rfl
  have hlink := hs.sound site.conn
  have hst : (s.link site.conn).stage = some (out, .answering response commands) := stage_self hl
  simp [Link.Sound, hst] at hlink

theorem effort_step (hb : s.Sound) (he : e.inner = true)
    (h : (server hash).step s e = some (t, o)) :
    t.effort + e.ofLoop.toNat ≤ s.effort := by
  cases e with
  | accept fd | ready fd hup inp out => cases he
  | loop =>
    obtain ⟨hx,-⟩ := quietly_eq h
    unfold handleLoop at hx
    split at hx
    · rename_i site out stage hl
      obtain ⟨turn,ht,rfl⟩ := Option.map_eq_some_iff.mp hx
      have hless := effort_turn (hb.unanswering hl) ht
      rw [effort_eq, effort_eq, turn_loop, hl]
      simpa [Option.map_map, Function.comp_def, Event.ofLoop] using hless
    · cases hx
  | answer r => exact absurd ((sync_unreachable r hb).symm.trans h) (by simp)
  | recv x =>
    simp only [server, handleRecv] at h
    split at h
    · rename_i site out hl
      split at h <;> cases h
      simp [effort, visit, hl, Event.ofLoop, Pending.effort, Stage.effort]
    · cases h
  | flush x =>
    simp only [server, handleFlush] at h
    split at h
    · rename_i site out hl
      split at h <;> cases h
      simp [effort, visit, hl, Event.ofLoop, Pending.effort, Stage.effort]
    · cases h
  | sweep now i order =>
    cases h
    exact le_refl _
  | take w | dispatch w r | send w x | queue w | clear w =>
    obtain ⟨-,hl⟩ := drops_worker h rfl
    simp [effort, hl, Event.ofLoop]

theorem turn_enabled (hs : s.Sound) {site : Site} {out : Bool} {stage : Stage}
    (hl : s.loop = some (site, (out, stage))) :
    ∃ e, e.inner = true ∧ e.ofLoop = true ∧ ((server hash).step s e).isSome = true := by
  have hlink := hs.sound site.conn
  have hst : (s.link site.conn).stage = some (out, stage) := stage_self hl
  by_cases hturn : loopTurn out stage (s.conns site.conn) = none
  · cases stage with
    | receiving =>
      exact ⟨.recv .error,rfl,rfl,by simp [server, handleRecv, hl, Received.through,
        Received.possible]⟩
    | writing =>
      exact ⟨.flush .error,rfl,rfl,by simp [server, handleFlush, hl, Sent.through, Sent.possible]⟩
    | processing commands =>
      simp only [Link.Sound, hst, Option.map_some] at hlink
      have hfree : (s.conns site.conn).inFlight = false := hlink.2
      cases commands <;> simp [loopTurn, Connection.trySetInFlight, hfree] at hturn
    | reading | received commands | flushed =>
      simp only [loopTurn] at hturn
      split at hturn <;> cases hturn
    | answering | submitting | updating | modifying => cases hturn
  · obtain ⟨turn,ht⟩ := Option.ne_none_iff_exists'.mp hturn
    exact ⟨.loop,rfl,rfl,by simp [server, quietly, handleLoop, hl, ht]⟩

end Server

namespace EventLoop

variable {hash : Str → Nat} {l m : EventLoop} {e : LoopEvent} {o : List LoopOut}

def effort (l : EventLoop) : Nat :=
  match l.control with
  | .starting => 2
  | .checking => 1
  | .waiting => 12 * maxEvents + 3
  | .handling rest => 12 * rest.length + l.server.effort + 2
  | .accepting rest => 12 * rest.length + 3
  | _ => 0

theorem Fresh.no_effort (h : l.Fresh) (hc : ∀ rest, l.control ≠ .handling rest) :
    l.server.effort = 0 := by
  rw [Server.effort, h.idle hc]

theorem effort_client {s t : Server} {fd : Nat} {hup inp out : Bool}
    (h : s.handleEvent fd hup inp out = some t) (hl : s.loop = none) : t.effort ≤ 11 := by
  have hsmall := effort_onReady inp out
  unfold Server.handleEvent at h
  split at h
  · cases h
  · split at h
    · cases h
      simp [Server.effort, Server.closeConnection, hl]
    · split at h <;> cases h
      · simp [Server.effort, hl]
      · rw [Server.effort_eq]
        simpa [Server.visit, Option.map_map, Function.comp_def] using hsmall

theorem effort_step (hf : l.Fresh) (h : Step hash l e m o) :
    (l.running = true ∧ m.effort = 12 * maxEvents + 3) ∨
      m.effort + e.ofLoop.toNat ≤ l.effort + e.isAccept.toNat := by
  cases h with
  | stop => exact .inr (le_refl _)
  | run hc => exact .inr (by simp [effort, hc, LoopEvent.ofLoop])
  | check hc =>
    cases hrun : l.running with
    | true => exact .inl ⟨rfl,by simp [effort]⟩
    | false => exact .inr (by simp [effort, hc, LoopEvent.ofLoop])
  | wait ready hc hr =>
    have hnone := hf.no_effort (by simp [hc])
    have hlength := hr.2.1
    refine .inr ?_
    simp only [effort, hc, hnone, LoopEvent.ofLoop, Bool.toNat_true]
    omega
  | handled hc hl =>
    refine .inr ?_
    simp only [effort, hc, LoopEvent.ofLoop, Bool.toNat_true]
    omega
  | listener x rest hc hl hx =>
    refine .inr ?_
    simp only [effort, hc, LoopEvent.ofLoop, Bool.toNat_true, List.length_cons]
    omega
  | client x rest s hc hl hx hs =>
    have hsmall := effort_client hs hl
    refine .inr ?_
    simp only [effort, hc, LoopEvent.ofLoop, Bool.toNat_true, List.length_cons]
    omega
  | noMore rest hc =>
    have hnone := hf.no_effort (by simp [hc])
    refine .inr ?_
    simp only [effort, hc, hnone, LoopEvent.ofLoop, Bool.toNat_true]
    omega
  | accepted rest fd s hc hfd hs hi => exact .inr (by simp [effort, hc, LoopEvent.ofLoop,
      LoopEvent.isAccept])
  | addFailed rest fd s hc hs hi => exact absurd (hf.add_succeeds hs) hi
  | modifyFailed x he hfail => exact absurd hfail (by simp [hf.modify_succeeds x])
  | visit x t outs he hok hs =>
    have hless := Server.effort_step hf.sound he hs
    refine .inr ?_
    cases hc : l.control with
    | handling rest =>
      simp only [effort, hc, LoopEvent.ofLoop]
      omega
    | _ =>
      have hnone := hf.no_effort (by simp [hc])
      simp only [effort, hc, LoopEvent.ofLoop]
      omega
  | destroy order hc ho => exact .inr (by simp [effort, LoopEvent.ofLoop])

theorem accept_ofLoop (e : LoopEvent) : e.isAccept.toNat ≤ e.ofLoop.toNat := by
  rcases e with _ | _ | _ | _ | _ | fd | _ | _
  all_goals try exact Nat.zero_le _
  cases fd <;> simp [LoopEvent.isAccept, LoopEvent.ofLoop]

theorem effort_bound (hf : l.Fresh) (hl : l.effort ≤ 12 * maxEvents + 3)
    (h : Step hash l e m o) : m.effort ≤ 12 * maxEvents + 3 := by
  have haccept := accept_ofLoop e
  rcases effort_step hf h with ⟨-,heq⟩ | hle
  · omega
  · omega

structure Ending (l : EventLoop) : Prop where
  running : l.running = false
  started : l.control ≠ .starting

def waits (l : EventLoop) : Nat := if l.control = .waiting then 1 else 0

theorem Ending.step (hd : l.Ending) (h : Step hash l e m o) :
    m.Ending ∧ m.waits + e.isWait.toNat ≤ l.waits := by
  obtain ⟨hrun,hstart⟩ := hd
  cases h with
  | stop => exact ⟨⟨rfl,hstart⟩,le_refl _⟩
  | run hc => exact absurd hc hstart
  | check hc => exact ⟨⟨hrun,by simp [hrun]⟩,by simp [waits, hrun, LoopEvent.isWait]⟩
  | wait ready hc hr => exact ⟨⟨hrun,by simp⟩,by simp [waits, hc, LoopEvent.isWait]⟩
  | accepted rest fd s hc hfd hs hi => exact ⟨⟨hrun,hstart⟩,le_refl _⟩
  | visit x t outs he hok hs => exact ⟨⟨hrun,hstart⟩,le_refl _⟩
  | destroy order hc ho => exact ⟨⟨rfl,by simp⟩,by simp [waits, LoopEvent.isWait]⟩
  | _ => exact ⟨⟨hrun,by simp⟩,by simp [waits, LoopEvent.isWait]⟩

theorem Fresh.progress (h : l.Fresh) (hret : l.control ≠ .returned)
    (hdest : l.control ≠ .destroyed) :
    ∃ e, e.ofLoop = true ∧ e.isAccept = false ∧ ((eventLoop hash).step l e).isSome = true := by
  cases hc : l.control with
  | starting => exact ⟨.run,rfl,rfl,by simp [eventLoop, run, Machine.quiet, hc]⟩
  | checking => exact ⟨.check,rfl,rfl,by simp [eventLoop, check, Machine.quiet, hc]⟩
  | waiting =>
    have hempty : l.Reports [] := ⟨List.nodup_nil,Nat.zero_le _,by simp⟩
    exact ⟨.wait [],rfl,rfl,by simp [eventLoop, wait, hc, hempty]⟩
  | handling rest =>
    cases hl : l.server.loop with
    | none =>
      cases rest with
      | nil => exact ⟨.next,rfl,rfl,by simp [eventLoop, next, hc, hl]⟩
      | cons x rest =>
        rcases eq_or_ne x.fd l.serverFd with hx | hx
        · exact ⟨.next,rfl,rfl,by simp [eventLoop, next, hc, hl, hx]⟩
        · obtain ⟨s,hs⟩ : ∃ s, l.server.handleEvent x.fd x.hup x.inp x.out = some s := by
            unfold Server.handleEvent
            rw [hl]
            dsimp only
            split
            · exact ⟨_,rfl⟩
            · split <;> exact ⟨_,rfl⟩
          exact ⟨.next,rfl,rfl,by simp [eventLoop, next, hc, hl, hx, hs]⟩
    | some visit =>
      obtain ⟨site,out,stage⟩ := visit
      obtain ⟨e,he,hloop,hs⟩ := Server.turn_enabled h.sound hl
      refine ⟨.visit e,hloop,rfl,?_⟩
      simpa [eventLoop, EventLoop.visit, he, h.modify_succeeds e] using hs
  | accepting rest => exact ⟨.accept none,rfl,rfl,by simp [eventLoop, acceptConnection, hc]⟩
  | returned => exact absurd hc hret
  | thrown => exact absurd hc h.thrown
  | destroyed => exact absurd hc hdest

theorem run_ending {es : List LoopEvent} {os : List LoopOut} (hd : l.Ending) (hf : l.Fresh)
    (h : (eventLoop hash).Run Machine.anyStep l es m os) :
    m.Ending ∧ m.Fresh ∧ es.countP LoopEvent.isWait + m.waits ≤ l.waits ∧
      es.countP LoopEvent.ofLoop + m.effort ≤ l.effort + es.countP LoopEvent.isAccept := by
  induction h with
  | nil => exact ⟨hd,hf,by simp,by simp⟩
  | @snoc es _ _ e _ _ _ _ hstep ih =>
    obtain ⟨hd',hf',hwaits,heffort⟩ := ih
    have hs := step_cases hstep
    obtain ⟨hnext,hw⟩ := hd'.step hs
    have hless := (effort_step hf' hs).resolve_left fun hr => by simp [hd'.running] at hr
    refine ⟨hnext,hf'.step hs,?_,?_⟩
    · rw [Machine.countP_snoc]
      omega
    · rw [Machine.countP_snoc, Machine.countP_snoc]
      omega

end EventLoop

theorem stop_ends_run (hash : Str → Nat) (serverFd numThreads : Nat) (d : Dispatcher)
    {es ds : List LoopEvent} {l m : EventLoop} {os ps : List LoopOut}
    (h : (eventLoop hash).Run Machine.anyStep (.create serverFd numThreads d) es l os)
    (hstop : l.running = false) (hstarted : l.control ≠ .starting)
    (hrun : (eventLoop hash).Run Machine.anyStep l ds m ps) :
    ds.countP LoopEvent.isWait ≤ 1 ∧
      ds.countP LoopEvent.ofLoop ≤ 12 * maxEvents + 3 + ds.countP LoopEvent.isAccept ∧
      (m.control = .returned ∨ m.control = .destroyed ∨
        ∃ e, e.ofLoop = true ∧ e.isAccept = false ∧
          ((eventLoop hash).step m e).isSome = true) := by
  obtain ⟨hf,hbound⟩ : l.Fresh ∧ l.effort ≤ 12 * maxEvents + 3 := by
    refine h.invariant (fun l _ => l.Fresh ∧ l.effort ≤ 12 * maxEvents + 3) ?_ ?_
    · exact ⟨EventLoop.fresh_create ..,by simp [EventLoop.effort, EventLoop.create]⟩
    · rintro l os e m o ⟨hf,hl⟩ - hstep
      have hs := EventLoop.step_cases hstep
      exact ⟨hf.step hs,EventLoop.effort_bound hf hl hs⟩
  obtain ⟨-,hfresh,hwaits,heffort⟩ := EventLoop.run_ending ⟨hstop,hstarted⟩ hf hrun
  refine ⟨?_,by omega,?_⟩
  · have hone : l.waits ≤ 1 := by
      unfold EventLoop.waits
      split <;> simp
    omega
  · rcases eq_or_ne m.control .returned with hret | hret
    · exact .inl hret
    · rcases eq_or_ne m.control .destroyed with hdest | hdest
      · exact .inr (.inl hdest)
      · exact .inr (.inr (hfresh.progress hret hdest))

def stoppedLate : List LoopEvent :=
  [.wait [⟨3, false, true, false⟩], .next, .accept (some 5), .accept none, .next, .check]

theorem late_stop_ends_run :
    ∃ l m os ps, (eventLoop (fun _ => 0)).Run Machine.anyStep
        (.create 3 1 (.create (.create 48) none 0)) [.run, .check, .stop] l os ∧
      (eventLoop (fun _ => 0)).Run Machine.anyStep l stoppedLate m ps ∧
      (stoppedLate.countP LoopEvent.isWait ≤ 1 ∧
        stoppedLate.countP LoopEvent.ofLoop ≤
          12 * maxEvents + 3 + stoppedLate.countP LoopEvent.isAccept ∧
        (m.control = .returned ∨ m.control = .destroyed ∨
          ∃ e, e.ofLoop = true ∧ e.isAccept = false ∧
            ((eventLoop (fun _ => 0)).step m e).isSome = true)) ∧
      m.control = .returned :=
  ⟨_,_,_,_,Machine.run_of_exec (by decide +kernel),Machine.run_of_exec (by decide +kernel),
    stop_ends_run _ 3 1 _ (Machine.run_of_exec (by decide +kernel)) (by decide +kernel)
      (by decide +kernel) (Machine.run_of_exec (by decide +kernel)),by decide +kernel⟩

example : ((eventLoop (fun _ => 0)).exec Machine.anyStep [.stop, .run, .check]
    (.create 3 1 (.create (.create 48) none 0)) []).map (fun x => (x.1.running, x.1.control)) =
      some (true, .waiting) := by decide +kernel

end CacheForge
