import CacheForge.Library.Machine
import CacheForge.Storage.AofReplay

namespace CacheForge

inductive WriterStage where
  | collecting
  | writing (nonempty : Bool) (batch : List Str)
  | returned
  deriving DecidableEq, Repr

inductive Stopping where
  | notCalled
  | flagged
  | requested
  | joined
  | returned
  deriving DecidableEq, Repr

structure Writer where
  aof : AOFWriter
  callers : Nat → Option Str
  stage : WriterStage
  stopRequested : Bool
  stopping : Stopping
  file : Str
  buffer : Str
  isOpen : Bool
  good : Bool
  writtenCount : Nat

inductive WriterEvent where
  | log (thread : Nat) (rec : Record)
  | push (thread : Nat)
  | collect
  | write
  | endBatch (elapsed : Bool)
  | spill (count : Nat)
  | fail
  | stop
  | requestStop
  | join
  | close
  deriving DecidableEq, Repr

inductive WriterOut where
  | pushed (command : Str)
  | returned (command : Str)
  | wrote (command : Str)
  | stopCalled
  deriving DecidableEq, Repr

namespace Writer

def start (file : Str) : Writer where
  aof := .running
  callers := fun _ => none
  stage := .collecting
  stopRequested := false
  stopping := .notCalled
  file := file
  buffer := []
  isOpen := true
  good := true
  writtenCount := 0

def batch (s : Writer) : List Str :=
  match s.stage with
  | .writing _ batch => batch
  | _ => []

def log (t : Nat) (rec : Record) (s : Writer) : Option (Writer × List WriterOut) :=
  match s.callers t with
  | some _ => none
  | none =>
      if !s.aof.enabled then some (s, [.returned rec.line])
      else if s.aof.stopped then some (s, [.returned rec.line])
      else some ({ s with callers := Function.update s.callers t (some rec.line) }, [])

def push (t : Nat) (s : Writer) : Option (Writer × List WriterOut) :=
  match s.callers t with
  | some command =>
      some ({ s with
        aof := { s.aof with queue := s.aof.queue ++ [command] }
        callers := Function.update s.callers t none }, [.pushed command, .returned command])
  | none => none

def collect (s : Writer) : Option (Writer × List WriterOut) :=
  match s.stage with
  | .collecting =>
      if s.stopRequested ∧ s.aof.queue = [] then some ({ s with stage := .returned }, [])
      else
        let batch := s.aof.queue
        let s := { s with aof := { s.aof with queue := [] } }
        if s.isOpen then some ({ s with stage := .writing (batch ≠ []) batch }, [])
        else some (s, [])
  | _ => none

def write (s : Writer) : Option (Writer × List WriterOut) :=
  match s.stage with
  | .writing nonempty (command :: batch) =>
      if s.good then
        some ({ s with
          buffer := s.buffer ++ command ++ ['\n']
          writtenCount := s.writtenCount + 1
          stage := .writing nonempty batch }, [.wrote command])
      else some ({ s with stage := .writing nonempty [] }, [])
  | _ => none

def flush (s : Writer) : Writer :=
  if s.good then { s with file := s.file ++ s.buffer, buffer := [] } else s

def endBatch (elapsed : Bool) (s : Writer) : Option (Writer × List WriterOut) :=
  match s.stage with
  | .writing nonempty [] =>
      let s := if nonempty || elapsed then s.flush else s
      some ({ s with stage := .collecting }, [])
  | _ => none

def spill (count : Nat) (s : Writer) : Option (Writer × List WriterOut) :=
  match s.stage with
  | .writing _ _ =>
      some ({ s with file := s.file ++ s.buffer.take count, buffer := s.buffer.drop count }, [])
  | _ => none

def stop (s : Writer) : Option (Writer × List WriterOut) :=
  match s.stopping with
  | .notCalled =>
      some ({ s with aof := { s.aof with stopped := true }, stopping := .flagged }, [.stopCalled])
  | _ => none

def requestStop (s : Writer) : Option (Writer × List WriterOut) :=
  match s.stopping with
  | .flagged => some ({ s with stopRequested := true, stopping := .requested }, [])
  | _ => none

def join (s : Writer) : Option (Writer × List WriterOut) :=
  match s.stopping, s.stage with
  | .requested, .returned => some ({ s with stopping := .joined }, [])
  | _, _ => none

def close (s : Writer) : Option (Writer × List WriterOut) :=
  match s.stopping with
  | .joined =>
      some ({ s with
        file := s.file ++ s.buffer
        buffer := []
        isOpen := false
        stopping := .returned }, [])
  | _ => none

end Writer

def aofWriter : Machine Writer WriterEvent WriterOut where
  step s e :=
    match e with
    | .log t rec => s.log t rec
    | .push t => s.push t
    | .collect => s.collect
    | .write => s.write
    | .endBatch elapsed => s.endBatch elapsed
    | .spill count => s.spill count
    | .fail => some ({ s with good := false }, [])
    | .stop => s.stop
    | .requestStop => s.requestStop
    | .join => s.join
    | .close => s.close

def pushed (os : List WriterOut) : List Str :=
  os.filterMap fun | .pushed command => some command | _ => none

def returned (os : List WriterOut) : List Str :=
  os.filterMap fun | .returned command => some command | _ => none

def wrote (os : List WriterOut) : List Str :=
  os.filterMap fun | .wrote command => some command | _ => none

def beforeStop (os : List WriterOut) : List WriterOut := os.takeWhile (fun o => o ≠ .stopCalled)

def StaysGood (_ : Writer) (e : WriterEvent) : Prop := e ≠ .fail

section

variable (os ps : List WriterOut)

theorem pushed_append : pushed (os ++ ps) = pushed os ++ pushed ps := List.filterMap_append ..

theorem returned_append : returned (os ++ ps) = returned os ++ returned ps :=
  List.filterMap_append ..

theorem wrote_append : wrote (os ++ ps) = wrote os ++ wrote ps := List.filterMap_append ..

variable {os}

theorem beforeStop_fresh (h : .stopCalled ∉ os) : beforeStop (os ++ ps) = os ++ beforeStop ps := by
  refine List.takeWhile_append_of_pos fun o ho => ?_
  simpa using ne_of_mem_of_not_mem ho h

theorem beforeStop_called (h : .stopCalled ∈ os) : beforeStop (os ++ ps) = beforeStop os := by
  rw [beforeStop, List.takeWhile_append, if_neg]
  · rfl
  · intro hl
    have hall := List.takeWhile_eq_self_iff.mp ((List.takeWhile_sublist _).eq_of_length hl)
    simpa using hall _ h

end

theorem returned_fresh {os ps : List WriterOut} (ho : .stopCalled ∉ os) (hp : .stopCalled ∉ ps) :
    returned (beforeStop (os ++ ps)) = returned (beforeStop os) ++ returned ps := by
  have hos : beforeStop os = os := by simpa [beforeStop] using beforeStop_fresh [] ho
  have hps : beforeStop ps = ps := by simpa [beforeStop] using beforeStop_fresh [] hp
  rw [beforeStop_fresh ps ho, hos, hps, returned_append]

theorem returned_beforeStop (os ps : List WriterOut) :
    returned (beforeStop os) <+: returned (beforeStop (os ++ ps)) := by
  by_cases h : .stopCalled ∈ os
  · rw [beforeStop_called ps h]
  · have hos : beforeStop os = os := by simpa [beforeStop] using beforeStop_fresh [] h
    rw [beforeStop_fresh ps h, hos, returned_append]
    exact List.prefix_append _ _

theorem aofFile_snoc (ls : List Str) (l : Str) :
    aofFile (ls ++ [l]) = aofFile ls ++ l ++ ['\n'] := by
  simp [aofFile, Lines.join]

namespace Writer

structure Sound (file : Str) (s : Writer) (os : List WriterOut) : Prop where
  flow : wrote os ++ (s.batch ++ s.aof.queue) = pushed os
  count : s.writtenCount = (wrote os).length
  bytes : s.file ++ s.buffer = file ++ aofFile (wrote os)
  enabled : s.aof.enabled = true
  good : s.good = true
  opened : s.stopping ≠ .returned → s.isOpen = true
  fresh : s.stopping = .notCalled → s.aof.stopped = false ∧ s.stopRequested = false ∧
    .stopCalled ∉ os ∧ returned os = pushed os
  called : s.stopping ≠ .notCalled → .stopCalled ∈ os ∧ returned (beforeStop os) <+: pushed os
  drained : s.stage = .returned → s.stopping ≠ .notCalled ∧ returned (beforeStop os) <+: wrote os
  joined : s.stopping = .joined ∨ s.stopping = .returned → s.stage = .returned
  closed : s.stopping = .returned → s.buffer = []

section

variable {file : Str} {s t : Writer} {os o : List WriterOut}

theorem sound_start (file : Str) : (start file).Sound file [] := by
  refine ⟨rfl,rfl,by simp [start, aofFile, wrote],rfl,rfl,fun _ => rfl,
    fun _ => ⟨rfl,rfl,by simp,rfl⟩,fun h => absurd rfl h,nofun,?_,nofun⟩
  rintro (h | h) <;> cases h

theorem Sound.called_append (hs : s.Sound file os) (o : List WriterOut)
    (h : s.stopping ≠ .notCalled) : .stopCalled ∈ os ++ o ∧
      returned (beforeStop (os ++ o)) <+: pushed (os ++ o) := by
  obtain ⟨hm,hp⟩ := hs.called h
  refine ⟨List.mem_append_left _ hm,?_⟩
  rw [beforeStop_called o hm, pushed_append]
  exact hp.trans (List.prefix_append _ _)

theorem Sound.drained_append (hs : s.Sound file os) (o : List WriterOut)
    (h : s.stage = .returned) : s.stopping ≠ .notCalled ∧
      returned (beforeStop (os ++ o)) <+: wrote (os ++ o) := by
  obtain ⟨hn,hp⟩ := hs.drained h
  refine ⟨hn,?_⟩
  rw [beforeStop_called o (hs.called hn).1, wrote_append]
  exact hp.trans (List.prefix_append _ _)

theorem Sound.live (hs : s.Sound file os) (h : s.stage ≠ .returned) :
    ¬(s.stopping = .joined ∨ s.stopping = .returned) :=
  fun hj => h (hs.joined hj)

theorem log_spec {thread : Nat} {rec : Record} (h : s.log thread rec = some (t, o)) :
    s.callers thread = none ∧
      ((t = s ∧ o = [.returned rec.line] ∧ (s.aof.enabled = false ∨ s.aof.stopped = true)) ∨
        t = { s with callers := Function.update s.callers thread (some rec.line) } ∧ o = [] ∧
          s.aof.enabled = true ∧ s.aof.stopped = false) := by
  unfold Writer.log at h
  split at h
  · cases h
  · rename_i hn
    refine ⟨hn,?_⟩
    cases he : s.aof.enabled with
    | false =>
      simp only [he, Bool.not_false, if_true] at h
      cases h
      exact .inl ⟨rfl,rfl,.inl rfl⟩
    | true =>
      cases hstop : s.aof.stopped with
      | true =>
        simp only [he, hstop, Bool.not_true, if_true] at h
        cases h
        exact .inl ⟨rfl,rfl,.inr rfl⟩
      | false =>
        simp only [he, hstop, Bool.not_true] at h
        cases h
        exact .inr ⟨rfl,rfl,rfl,rfl⟩

theorem Sound.log (hs : s.Sound file os) {thread : Nat} {rec : Record}
    (h : s.log thread rec = some (t, o)) : t.Sound file (os ++ o) := by
  rcases (log_spec h).2 with ⟨rfl,rfl,hoff⟩ | ⟨rfl,rfl,-⟩
  · have hn : t.stopping ≠ .notCalled := by
      intro hn
      simp [hs.enabled, (hs.fresh hn).1] at hoff
    have hw : wrote (os ++ [.returned rec.line]) = wrote os := by simp [wrote]
    refine ⟨?_,?_,?_,hs.enabled,hs.good,hs.opened,fun h => absurd h hn,hs.called_append _,
      hs.drained_append _,hs.joined,hs.closed⟩
    · rw [hw, hs.flow]
      simp [pushed]
    · rw [hw, hs.count]
    · rw [hw, hs.bytes]
  · rw [List.append_nil]
    exact { hs with }

theorem Sound.push (hs : s.Sound file os) {thread : Nat} (h : s.push thread = some (t, o)) :
    t.Sound file (os ++ o) := by
  unfold Writer.push at h
  split at h
  · rename_i command hc
    cases h
    have hp : pushed (os ++ [.pushed command, .returned command]) = pushed os ++ [command] := by
      simp [pushed]
    have hw : wrote (os ++ [.pushed command, .returned command]) = wrote os := by simp [wrote]
    refine ⟨?_,?_,?_,hs.enabled,hs.good,hs.opened,?_,hs.called_append _,hs.drained_append _,
      hs.joined,hs.closed⟩
    · rw [hw, hp, ← hs.flow]
      simp [batch, List.append_assoc]
    · rw [hw]
      exact hs.count
    · rw [hw]
      exact hs.bytes
    · intro hn
      obtain ⟨hstop,hreq,hmem,hret⟩ := hs.fresh hn
      refine ⟨hstop,hreq,by simp [hmem],?_⟩
      rw [hp, returned_append, hret]
      rfl
  · cases h

theorem Sound.collect (hs : s.Sound file os) (h : s.collect = some (t, o)) :
    t.Sound file (os ++ o) := by
  unfold Writer.collect at h
  split at h
  · rename_i hst
    have hb : s.batch = [] := by simp [batch, hst]
    have hflow := hs.flow
    rw [hb, List.nil_append] at hflow
    have hlive := hs.live (by simp [hst])
    split at h
    · rename_i hreq
      cases h
      have hn : s.stopping ≠ .notCalled := by
        intro hn
        simp [(hs.fresh hn).2.1] at hreq
      rw [hreq.2, List.append_nil] at hflow
      rw [List.append_nil]
      refine { hs with flow := ?_, drained := fun _ => ⟨hn,?_⟩, joined := fun _ => rfl }
      · simp [batch, hreq.2, hflow]
      · rw [hflow]
        exact (hs.called hn).2
    · have ho : s.isOpen = true := hs.opened fun hr => hlive (.inr hr)
      rw [if_pos ho] at h
      cases h
      rw [List.append_nil]
      refine { hs with flow := ?_, drained := nofun, joined := fun hj => absurd hj hlive }
      simpa [batch] using hflow
  · cases h

theorem Sound.write (hs : s.Sound file os) (h : s.write = some (t, o)) :
    t.Sound file (os ++ o) := by
  unfold Writer.write at h
  split at h
  · rename_i nonempty command batch hst
    rw [if_pos hs.good] at h
    cases h
    have hw : wrote (os ++ [.wrote command]) = wrote os ++ [command] := by simp [wrote]
    have hp : pushed (os ++ [.wrote command]) = pushed os := by simp [pushed]
    have hlive := hs.live (by simp [hst])
    refine ⟨?_,?_,?_,hs.enabled,hs.good,hs.opened,?_,hs.called_append _,nofun,
      fun hj => absurd hj hlive,fun hr => absurd (.inr hr) hlive⟩
    · rw [hw, hp, ← hs.flow]
      simp [Writer.batch, hst]
    · rw [hw, List.length_append, ← hs.count]
      rfl
    · rw [hw, aofFile_snoc]
      simp only [← List.append_assoc, hs.bytes]
    · intro hn
      obtain ⟨hstop,hreq,hmem,hret⟩ := hs.fresh hn
      refine ⟨hstop,hreq,by simp [hmem],?_⟩
      rw [hp, returned_append, hret]
      exact List.append_nil _
  · cases h

theorem Sound.endBatch (hs : s.Sound file os) {elapsed : Bool}
    (h : s.endBatch elapsed = some (t, o)) : t.Sound file (os ++ o) := by
  unfold Writer.endBatch at h
  split at h
  · rename_i nonempty hst
    cases h
    have hflow := hs.flow
    have hb : s.batch = [] := by simp [batch, hst]
    rw [hb] at hflow
    have hlive := hs.live (by simp [hst])
    rw [List.append_nil]
    split
    · rw [flush, if_pos hs.good]
      refine { hs with
        flow := hflow
        bytes := ?_
        drained := nofun
        joined := fun hj => absurd hj hlive
        closed := fun _ => rfl }
      simpa using hs.bytes
    · exact { hs with flow := hflow, drained := nofun, joined := fun hj => absurd hj hlive }
  · cases h

theorem Sound.spill (hs : s.Sound file os) {count : Nat} (h : s.spill count = some (t, o)) :
    t.Sound file (os ++ o) := by
  unfold Writer.spill at h
  split at h
  · rename_i nonempty batch hst
    cases h
    rw [List.append_nil]
    refine { hs with bytes := ?_, closed := fun hr => ?_ }
    · simpa using hs.bytes
    · simp [hs.joined (.inr hr)] at hst
  · cases h

theorem Sound.stop (hs : s.Sound file os) (h : s.stop = some (t, o)) : t.Sound file (os ++ o) := by
  unfold Writer.stop at h
  split at h
  · rename_i hn
    cases h
    obtain ⟨-,-,hmem,hret⟩ := hs.fresh hn
    have hb : beforeStop (os ++ [.stopCalled]) = os := by
      rw [beforeStop_fresh _ hmem]
      exact List.append_nil os
    have hw : wrote (os ++ [.stopCalled]) = wrote os := by simp [wrote]
    have hp : pushed (os ++ [.stopCalled]) = pushed os := by simp [pushed]
    refine ⟨?_,?_,?_,hs.enabled,hs.good,fun _ => hs.opened (by simp [hn]),nofun,
      fun _ => ⟨by simp,?_⟩,fun hd => absurd hn (hs.drained hd).1,?_,nofun⟩
    · rw [hw, hp]
      exact hs.flow
    · rw [hw]
      exact hs.count
    · rw [hw]
      exact hs.bytes
    · rw [hb, hp, hret]
    · rintro (h | h) <;> cases h
  · cases h

theorem Sound.requestStop (hs : s.Sound file os) (h : s.requestStop = some (t, o)) :
    t.Sound file (os ++ o) := by
  unfold Writer.requestStop at h
  split at h
  · rename_i hf
    cases h
    rw [List.append_nil]
    refine { hs with
      opened := fun _ => hs.opened (by simp [hf])
      fresh := nofun
      called := fun _ => hs.called (by simp [hf])
      drained := fun hd => ⟨nofun,(hs.drained hd).2⟩
      joined := ?_
      closed := nofun }
    rintro (h | h) <;> cases h
  · cases h

theorem Sound.join (hs : s.Sound file os) (h : s.join = some (t, o)) : t.Sound file (os ++ o) := by
  unfold Writer.join at h
  split at h
  · rename_i hr hst
    cases h
    rw [List.append_nil]
    exact { hs with
      opened := fun _ => hs.opened (by simp [hr])
      fresh := nofun
      called := fun _ => hs.called (by simp [hr])
      drained := fun hd => ⟨nofun,(hs.drained hd).2⟩
      joined := fun _ => hst
      closed := nofun }
  · cases h

theorem Sound.close (hs : s.Sound file os) (h : s.close = some (t, o)) :
    t.Sound file (os ++ o) := by
  unfold Writer.close at h
  split at h
  · rename_i hj
    cases h
    rw [List.append_nil]
    refine { hs with
      bytes := ?_
      opened := fun h => absurd rfl h
      fresh := nofun
      called := fun _ => hs.called (by simp [hj])
      drained := fun hd => ⟨nofun,(hs.drained hd).2⟩
      joined := fun _ => hs.joined (.inl hj)
      closed := fun _ => rfl }
    simpa using hs.bytes
  · cases h

theorem Sound.step {e : WriterEvent} (hs : s.Sound file os) (hg : StaysGood s e)
    (h : aofWriter.step s e = some (t, o)) : t.Sound file (os ++ o) := by
  cases e with
  | log thread rec => exact hs.log h
  | push thread => exact hs.push h
  | collect => exact hs.collect h
  | write => exact hs.write h
  | endBatch elapsed => exact hs.endBatch h
  | spill count => exact hs.spill h
  | fail => exact absurd rfl hg
  | stop => exact hs.stop h
  | requestStop => exact hs.requestStop h
  | join => exact hs.join h
  | close => exact hs.close h

theorem Sound.stopped (hs : s.Sound file os) (h : s.stopping = .returned) :
    ∃ later, s.file = file ++ aofFile (returned (beforeStop os) ++ later) ∧
      pushed os = returned (beforeStop os) ++ later ++ s.aof.queue := by
  have hst := hs.joined (.inr h)
  obtain ⟨later,hl⟩ := (hs.drained hst).2
  have hbytes := hs.bytes
  have hflow := hs.flow
  rw [hs.closed h, List.append_nil] at hbytes
  rw [batch, hst] at hflow
  refine ⟨later,?_,?_⟩
  · rw [hl, hbytes]
  · rw [hl, ← hflow]
    rfl

theorem run_sound {es : List WriterEvent} (h : aofWriter.Run StaysGood (start file) es s os) :
    s.Sound file os :=
  h.invariant (Sound file) (sound_start file) fun _ _ _ _ _ hs hg hstep => hs.step hg hstep

theorem log_push_log {thread : Nat} {rec : Record} (h : s.log thread rec = some (t, o)) :
    match t.callers thread with
    | some _ => ∃ u p, t.push thread = some (u, p) ∧ u.aof = s.aof.log rec
    | none => t.aof = s.aof.log rec := by
  obtain ⟨hn,⟨rfl,-,hoff⟩ | ⟨rfl,-,he,hstop⟩⟩ := log_spec h
  · rcases hoff with hoff | hoff <;> simp [hn, AOFWriter.log, AOFWriter.enqueue, hoff]
  · simp [AOFWriter.log, AOFWriter.enqueue, push, he, hstop]

end

end Writer

theorem writer_keeps_order (file : Str) {es : List WriterEvent} {s : Writer} {os : List WriterOut}
    (h : aofWriter.Run StaysGood (.start file) es s os) :
    wrote os ++ (s.batch ++ s.aof.queue) = pushed os ∧
      s.writtenCount = (wrote os).length ∧
      s.file ++ s.buffer = file ++ aofFile (wrote os) ∧
      (s.stopping = .returned → ∃ later,
        s.file = file ++ aofFile (returned (beforeStop os) ++ later) ∧
        pushed os = returned (beforeStop os) ++ later ++ s.aof.queue) := by
  have hs := Writer.run_sound h
  exact ⟨hs.flow,hs.count,hs.bytes,hs.stopped⟩

instance (s : Writer) : DecidablePred (StaysGood s) :=
  fun e => inferInstanceAs (Decidable (e ≠ .fail))

def twoCallers : List WriterEvent :=
  [.log 0 (.set ['a'] ['1']), .log 1 (.del ['b']), .push 1, .collect, .push 0, .write, .stop,
    .log 2 (.del ['c']), .endBatch false, .requestStop, .collect, .spill 1, .write, .spill 3,
    .endBatch false, .collect, .join, .close]

theorem two_callers_written :
    ∃ s os, aofWriter.Run StaysGood (.start []) twoCallers s os ∧ s.stopping = .returned ∧
      (∃ later, s.file = [] ++ aofFile (returned (beforeStop os) ++ later) ∧
        pushed os = returned (beforeStop os) ++ later ++ s.aof.queue) ∧
      s.file = "DEL b\nSET a 1\n".toList ∧ s.writtenCount = 2 :=
  ⟨_,_,Machine.run_of_exec (by decide +kernel),by decide +kernel,
    (writer_keeps_order [] (Machine.run_of_exec (by decide +kernel))).2.2.2 (by decide +kernel),
    by decide +kernel⟩

end CacheForge
