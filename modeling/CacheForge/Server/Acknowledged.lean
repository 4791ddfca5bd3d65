import CacheForge.Server.Shutdown

namespace CacheForge

def Delivery.acknowledges (d : Delivery) : Option Record :=
  match d.cmd.type, d.cmd.args with
  | .set, key :: value :: _ => if d.response = okResponse then some (.set key value) else none
  | .del, key :: _ => if d.response = integerResponse 1 then some (.del key) else none
  | _, _ => none

def Delivery.line (d : Delivery) : Option Str := d.acknowledges.map Record.line

def acknowledged (os : List Delivery) : List Str := os.filterMap Delivery.line

def WriterEvent.caller : WriterEvent → Option Nat
  | .log thread _ => some thread
  | .push thread => some thread
  | _ => none

def LoggedEarly (s : Shutdown) : ShutdownEvent → Prop
  | .log _ => s.writer.stopping = .notCalled
  | .push _ => s.writer.stopping = .notCalled
  | _ => True

theorem acknowledged_append (os ps : List Delivery) :
    acknowledged (os ++ ps) = acknowledged os ++ acknowledged ps :=
  List.filterMap_append ..

theorem acknowledges_logged {hash : Str → Nat} {r : Readings} {conn : Nat} {cmd : Command}
    {d : Dispatcher} {rec : Record}
    (h : (Delivery.mk conn cmd (d.dispatch hash r cmd).1).acknowledges = some rec) :
    (effect hash r cmd d.storage).2 = some rec := by
  obtain ⟨type,args⟩ := cmd
  cases type with
  | set =>
    rcases args with _ | ⟨k,_ | ⟨v,rest⟩⟩
    · cases h
    · cases h
    · cases h
      rfl
  | del =>
    rcases args with _ | ⟨k,rest⟩
    · cases h
    · simp only [Delivery.acknowledges, Dispatcher.dispatch, Dispatcher.dispatchDel] at h
      cases hd : (d.storage.del hash r.now k).1 with
      | true =>
        simp only [hd, if_true, Option.some.injEq] at h
        simp [effect, hd, h]
      | false =>
        have hne : integerResponse 0 ≠ integerResponse 1 := by decide
        simp [hd, hne] at h
  | ping | get | expire | ttl | stats | unknown => cases h

def Errand.line : Option Errand → Option Str
  | some ⟨conn, cmd, .sending response⟩ => (Delivery.mk conn cmd response).line
  | _ => none

def Errand.Agrees (w : Nat) (writer : Writer) (errand : Errand) : Prop :=
  match errand.stage with
  | .logging rec response =>
      ∀ l, (Delivery.mk errand.conn errand.cmd response).line = some l → l = rec.line
  | .pushing rec response => writer.callers w = some rec.line ∧
      ∀ l, (Delivery.mk errand.conn errand.cmd response).line = some l → l = rec.line
  | _ => True

theorem Errand.Agrees.callers {w : Nat} {x y : Writer} {errand : Errand}
    (h : errand.Agrees w x) (hc : y.callers w = x.callers w) : errand.Agrees w y := by
  obtain ⟨conn,cmd,stage⟩ := errand
  cases stage with
  | pushing rec response => exact ⟨hc.trans h.1,h.2⟩
  | dispatching | logging rec response | sending response | done => exact h

namespace Shutdown

def sending (s : Shutdown) : List Str := s.errands.filterMap Errand.line

structure Ledger (s : Shutdown) (os : List Delivery) (ps : List WriterOut) : Prop where
  counts : ∀ l, (acknowledged os).count l + s.sending.count l + (acknowledged s.held).count l ≤
    (returned (beforeStop ps)).count l
  errands : ∀ w (errand : Errand), s.errands[w]? = some (some errand) → errand.Agrees w s.writer

variable {s t : Shutdown} {os o : List Delivery} {ps p : List WriterOut}

theorem Ledger.frame (hl : s.Ledger os ps)
    (hcounts : ∀ l, (acknowledged o).count l + (acknowledged t.held).count l ≤
      (acknowledged s.held).count l)
    (herrands : t.errands = s.errands) (hcallers : t.writer.callers = s.writer.callers)
    (p : List WriterOut) : t.Ledger (os ++ o) (ps ++ p) := by
  refine ⟨fun l => ?_,fun w errand hw => ?_⟩
  · have hc := hl.counts l
    have ho := hcounts l
    have hr := (returned_beforeStop ps p).sublist.count_le l
    simp only [acknowledged_append, List.count_append, sending, herrands] at hc ⊢
    omega
  · rw [herrands] at hw
    exact (hl.errands w errand hw).callers (congrFun hcallers w)

theorem Ledger.advance (hl : s.Ledger os ps) {w : Nat} {old new : Option Errand}
    (hw : s.errands[w]? = some old) (herrands : t.errands = s.errands.set w new)
    (hnew : ∀ errand, new = some errand → errand.Agrees w t.writer)
    (hcallers : ∀ v, v ≠ w → t.writer.callers v = s.writer.callers v)
    (hcounts : ∀ l, (acknowledged o).count l + (Errand.line new).toList.count l +
        (acknowledged t.held).count l + (returned (beforeStop ps)).count l ≤
      (Errand.line old).toList.count l + (acknowledged s.held).count l +
        (returned (beforeStop (ps ++ p))).count l) : t.Ledger (os ++ o) (ps ++ p) := by
  refine ⟨fun l => ?_,fun v errand hv => ?_⟩
  · obtain ⟨a,b,ha,hb⟩ := Machine.filterMap_set Errand.line hw new
    have hc := hl.counts l
    have ho := hcounts l
    simp only [acknowledged_append, List.count_append, sending, herrands, ha, hb] at hc ⊢
    omega
  · rw [herrands] at hv
    rcases eq_or_ne v w with rfl | hne
    · have hlt := (List.getElem?_eq_some_iff.mp hw).1
      rw [List.getElem?_set_self hlt, Option.some.injEq] at hv
      exact hnew errand hv
    · rw [List.getElem?_set_ne (Ne.symm hne)] at hv
      exact (hl.errands v errand hv).callers (hcallers v hne)

structure Follows (s t : Shutdown) (os : List Delivery) (ps : List WriterOut) : Prop where
  teardown : t.teardown = .destroying → s.teardown = .destroying ∨ s.writer.stopping = .returned
  writer : (t.writer = s.writer ∧ t.Ledger os ps) ∨
    ∃ e p, StaysGood s.writer e ∧ aofWriter.step s.writer e = some (t.writer, p) ∧
      t.Ledger os (ps ++ p)

theorem Ledger.idle (hl : s.Ledger os ps)
    (hcounts : ∀ l, (acknowledged o).count l + (acknowledged t.held).count l ≤
      (acknowledged s.held).count l)
    (herrands : t.errands = s.errands) (hwriter : t.writer = s.writer)
    (hdown : t.teardown = .destroying → s.teardown = .destroying ∨ s.writer.stopping = .returned) :
    Follows s t (os ++ o) ps := by
  refine ⟨hdown,.inl ⟨hwriter,?_⟩⟩
  simpa using hl.frame hcounts herrands (congrArg Writer.callers hwriter) []

theorem Ledger.work (hl : s.Ledger os ps) {w : Nat} {old new : Option Errand}
    (hw : s.errands[w]? = some old) (herrands : t.errands = s.errands.set w new)
    (hnew : ∀ errand, new = some errand → errand.Agrees w t.writer) (hwriter : t.writer = s.writer)
    (hcounts : ∀ l, (acknowledged o).count l + (Errand.line new).toList.count l +
        (acknowledged t.held).count l ≤
      (Errand.line old).toList.count l + (acknowledged s.held).count l)
    (hdown : t.teardown = s.teardown) : Follows s t (os ++ o) ps := by
  refine ⟨fun h => .inl (hdown ▸ h),.inl ⟨hwriter,?_⟩⟩
  have ht : t.Ledger (os ++ o) (ps ++ []) := by
    refine hl.advance hw herrands hnew (fun v _ => by rw [hwriter]) fun l => ?_
    rw [List.append_nil]
    exact Nat.add_le_add_right (hcounts l) _
  simpa using ht

theorem line_count {d : Delivery} {x : Str} (h : ∀ l, d.line = some l → l = x) (l : Str) :
    d.line.toList.count l ≤ [x].count l := by
  cases hd : d.line with
  | none => simp
  | some y =>
    obtain rfl := h y hd
    simp

theorem follows_flush {conn : Nat} (hl : s.Ledger os ps) (h : s.flush conn = some (t, o)) :
    Follows s t (os ++ o) ps := by
  unfold flush at h
  split at h
  · rename_i d rest _ hd
    split at h
    · cases h
      refine hl.idle (fun l => ?_) rfl rfl .inl
      have hheld := List.takeWhile_append_dropWhile (p := fun d : Delivery => d.conn ≠ conn)
        (l := s.held)
      rw [hd] at hheld
      have hc := congrArg (fun ds => (acknowledged ds).count l) hheld
      have hcons : acknowledged (d :: rest) = acknowledged [d] ++ acknowledged rest :=
        acknowledged_append [d] rest
      simp only [acknowledged_append, hcons, List.count_append] at hc ⊢
      omega
    · cases h
  · cases h

theorem follows_take {w : Nat} (hl : s.Ledger os ps) (h : s.take w = some t) :
    Follows s t (os ++ []) ps := by
  unfold take at h
  split at h
  · rename_i task tasks hw ht
    obtain ⟨pool,-,rfl⟩ := Option.map_eq_some_iff.mp h
    refine hl.work hw rfl ?_ rfl (fun l => ?_) rfl
    · rintro errand ⟨⟩
      trivial
    · simp [Errand.line, acknowledged, setErrand]
  · cases h

theorem follows_dispatch {hash : Str → Nat} {w : Nat} {r : Readings} (hl : s.Ledger os ps)
    (h : s.dispatch hash w r = some t) : Follows s t (os ++ []) ps := by
  unfold dispatch at h
  split at h
  · rename_i conn cmd hw
    cases h
    have hack (l : Str)
        (hline : (Delivery.mk conn cmd (s.dispatcher.dispatch hash r cmd).1).line = some l) :
        ∃ rec, (effect hash r cmd s.dispatcher.storage).2 = some rec ∧ rec.line = l := by
      obtain ⟨rec,hrec,hl⟩ := Option.map_eq_some_iff.mp hline
      exact ⟨rec,acknowledges_logged hrec,hl⟩
    cases he : (effect hash r cmd s.dispatcher.storage).2 with
    | none =>
      have hline : (Delivery.mk conn cmd (s.dispatcher.dispatch hash r cmd).1).line = none := by
        by_contra hne
        obtain ⟨l,hl⟩ := Option.ne_none_iff_exists'.mp hne
        obtain ⟨rec,hrec,-⟩ := hack l hl
        simp [he] at hrec
      have herrands : s.errands.set w
          (some ⟨conn, cmd, .sending (s.dispatcher.dispatch hash r cmd).1⟩) = _ := rfl
      refine hl.work hw herrands ?_ rfl (fun l => ?_) rfl
      · rintro errand ⟨⟩
        trivial
      · simp [Errand.line, hline, acknowledged, setErrand]
    | some rec =>
      refine hl.work hw rfl ?_ rfl (fun l => ?_) rfl
      · rintro errand ⟨⟩ l hline
        obtain ⟨rec',hrec,rfl⟩ := hack l hline
        cases he.symm.trans hrec
        rfl
      · simp [Errand.line, acknowledged, setErrand]
  · cases h

theorem follows_log {w : Nat} (hl : s.Ledger os ps)
    (hfresh : .stopCalled ∉ ps) (h : s.log w = some t) : Follows s t (os ++ []) ps := by
  unfold log at h
  split at h
  · rename_i conn cmd rec response hw
    obtain ⟨⟨writer,p⟩,hlog,rfl⟩ := Option.map_eq_some_iff.mp h
    have hagree : ∀ l, (Delivery.mk conn cmd response).line = some l → l = rec.line :=
      hl.errands w _ hw
    refine ⟨.inl,.inr ⟨.log w rec,p,nofun,hlog,?_⟩⟩
    obtain ⟨hnone,⟨rfl,rfl,-⟩ | ⟨rfl,rfl,-⟩⟩ := Writer.log_spec hlog
    · simp only [hnone]
      refine hl.advance hw rfl ?_ (fun _ _ => rfl) fun l => ?_
      · rintro errand ⟨⟩
        trivial
      · have hret : returned (beforeStop (ps ++ [.returned rec.line])) =
            returned (beforeStop ps) ++ [rec.line] := returned_fresh hfresh (by simp)
        have hc := line_count hagree l
        simp only [hret, List.count_append, Errand.line, setErrand, acknowledged,
          List.filterMap_nil, List.count_nil, Option.toList_none]
        omega
    · simp only [Function.update_self]
      refine hl.advance hw rfl ?_ ?_ fun l => ?_
      · rintro errand ⟨⟩
        exact ⟨by simp [setErrand],hagree⟩
      · intro v hv
        simp [setErrand, hv]
      · simp [Errand.line, setErrand, acknowledged]
  · cases h

theorem follows_push {w : Nat} (hl : s.Ledger os ps)
    (hfresh : .stopCalled ∉ ps) (h : s.push w = some t) : Follows s t (os ++ []) ps := by
  unfold push at h
  split at h
  · rename_i conn cmd rec response hw
    obtain ⟨⟨writer,p⟩,hpush,rfl⟩ := Option.map_eq_some_iff.mp h
    obtain ⟨hcaller,hagree⟩ : s.writer.callers w = some rec.line ∧
        ∀ l, (Delivery.mk conn cmd response).line = some l → l = rec.line := hl.errands w _ hw
    refine ⟨.inl,.inr ⟨.push w,p,nofun,hpush,?_⟩⟩
    simp only [Writer.push, hcaller, Option.some.injEq, Prod.mk.injEq] at hpush
    obtain ⟨rfl,rfl⟩ := hpush
    refine hl.advance hw rfl ?_ ?_ fun l => ?_
    · rintro errand ⟨⟩
      trivial
    · intro v hv
      simp [setErrand, hv]
    · have hret : returned (beforeStop (ps ++ [.pushed rec.line, .returned rec.line])) =
          returned (beforeStop ps) ++ [rec.line] := returned_fresh hfresh (by simp)
      have hc := line_count hagree l
      simp only [hret, List.count_append, Errand.line, setErrand, acknowledged,
        List.filterMap_nil, List.count_nil, Option.toList_none]
      omega
  · cases h

theorem follows_send {w : Nat} {x : SendOutcome} (hl : s.Ledger os ps)
    (h : s.send w x = some (t, o)) : Follows s t (os ++ o) ps := by
  unfold send at h
  split at h
  · rename_i conn cmd response hw
    have hdone : ∀ errand, some (Errand.mk conn cmd .done) = some errand →
        errand.Agrees w s.writer := by
      rintro errand ⟨⟩
      trivial
    have hlost : Follows s (s.setErrand w (some ⟨conn, cmd, .done⟩)) (os ++ []) ps :=
      hl.work hw rfl hdone rfl (fun l => by simp [Errand.line, acknowledged, setErrand]) rfl
    split at h
    · cases x with
      | whole =>
        cases h
        refine hl.work hw rfl hdone rfl (fun l => ?_) rfl
        cases hd : (Delivery.mk conn cmd response).line <;>
          simp [Errand.line, acknowledged, setErrand, hd]
      | again =>
        cases h
        refine hl.work hw rfl hdone rfl (fun l => ?_) rfl
        cases hd : (Delivery.mk conn cmd response).line <;>
          simp [Errand.line, acknowledged, hd, Nat.add_comm]
      | error =>
        cases h
        exact hlost
    · cases h
      exact hlost
  · cases h

theorem follows_finish {w : Nat} (hl : s.Ledger os ps) (h : s.finish w = some t) :
    Follows s t (os ++ []) ps := by
  unfold finish at h
  split at h
  · rename_i conn cmd hw
    obtain ⟨pool,-,rfl⟩ := Option.map_eq_some_iff.mp h
    exact hl.work hw rfl nofun rfl (fun l => by simp [Errand.line, acknowledged, setErrand]) rfl
  · cases h

theorem step_kept {x y : Writer} {e : WriterEvent} {p : List WriterOut}
    (h : aofWriter.step x e = some (y, p)) :
    (x.stopping = .returned → y.stopping = .returned) ∧
      (e.caller = none → y.callers = x.callers) := by
  cases e with
  | log thread rec =>
    refine ⟨fun hr => ?_,fun hc => by cases hc⟩
    rcases (Writer.log_spec h).2 with ⟨rfl,-⟩ | ⟨rfl,-⟩ <;> exact hr
  | push thread =>
    simp only [aofWriter, Writer.push] at h
    split at h <;> cases h
    exact ⟨id,fun hc => by cases hc⟩
  | collect =>
    simp only [aofWriter, Writer.collect] at h
    split at h
    · split at h
      · cases h
        exact ⟨id,fun _ => rfl⟩
      · split at h <;> cases h <;> exact ⟨id,fun _ => rfl⟩
    · cases h
  | write =>
    simp only [aofWriter, Writer.write] at h
    split at h
    · split at h <;> cases h <;> exact ⟨id,fun _ => rfl⟩
    · cases h
  | endBatch elapsed =>
    simp only [aofWriter, Writer.endBatch, Writer.flush] at h
    split at h
    · cases h
      split
      · split <;> exact ⟨id,fun _ => rfl⟩
      · exact ⟨id,fun _ => rfl⟩
    · cases h
  | spill count =>
    simp only [aofWriter, Writer.spill] at h
    split at h <;> cases h
    exact ⟨id,fun _ => rfl⟩
  | fail =>
    cases h
    exact ⟨id,fun _ => rfl⟩
  | stop =>
    simp only [aofWriter, Writer.stop] at h
    split at h <;> cases h
    rename_i hn
    exact ⟨fun hr => absurd (hn.symm.trans hr) (by simp),fun _ => rfl⟩
  | requestStop =>
    simp only [aofWriter, Writer.requestStop] at h
    split at h <;> cases h
    rename_i hn
    exact ⟨fun hr => absurd (hn.symm.trans hr) (by simp),fun _ => rfl⟩
  | join =>
    simp only [aofWriter, Writer.join] at h
    split at h <;> cases h
    rename_i hn _
    exact ⟨fun hr => absurd (hn.symm.trans hr) (by simp),fun _ => rfl⟩
  | close =>
    simp only [aofWriter, Writer.close] at h
    split at h <;> cases h
    exact ⟨fun _ => rfl,fun _ => rfl⟩

theorem own_steps {x : Writer} {e : WriterEvent} (h : e.inLoop = true ∨ e.inStop = true) :
    StaysGood x e ∧ e.caller = none := by
  cases e with
  | log thread rec | push thread | fail => rcases h with h | h <;> cases h
  | collect | write | endBatch elapsed | spill count | stop | requestStop | join | close =>
    exact ⟨nofun,rfl⟩

theorem Ledger.write (hl : s.Ledger os ps) {e : WriterEvent}
    (he : e.inLoop = true ∨ e.inStop = true)
    (h : (aofWriter.step s.writer e).map (fun (writer, _) => { s with writer := writer }) =
      some t) : Follows s t (os ++ []) ps := by
  obtain ⟨⟨writer,p⟩,hstep,rfl⟩ := Option.map_eq_some_iff.mp h
  obtain ⟨hgood,hcaller⟩ := own_steps he
  refine ⟨.inl,.inr ⟨e,p,hgood,hstep,?_⟩⟩
  exact hl.frame (t := { s with writer := writer }) (fun l => by simp [acknowledged]) rfl
    ((step_kept hstep).2 hcaller) p

theorem Ledger.step {hash : Str → Nat} {e : ShutdownEvent} (hl : s.Ledger os ps)
    (hfresh : s.writer.stopping = .notCalled → .stopCalled ∉ ps) (hg : LoggedEarly s e)
    (h : (shutdown hash).step s e = some (t, o)) : Follows s t (os ++ o) ps := by
  have hsame (l : Str) : (acknowledged []).count l + (acknowledged s.held).count l ≤
      (acknowledged s.held).count l := by
    simp [acknowledged]
  cases e with
  | submit task =>
    obtain ⟨hx,rfl⟩ := Machine.quiet_some h
    unfold submit at hx
    split at hx
    · obtain ⟨pool,-,rfl⟩ := Option.map_eq_some_iff.mp hx
      exact hl.idle hsame rfl rfl .inl
    · cases hx
  | flush conn => exact follows_flush hl h
  | hangUp conn =>
    obtain ⟨hx,rfl⟩ := Machine.quiet_some h
    unfold hangUp at hx
    split at hx <;> cases hx
    exact hl.idle hsame rfl rfl .inl
  | sweep now i order =>
    cases h
    exact hl.idle hsame rfl rfl .inl
  | take w =>
    obtain ⟨hx,rfl⟩ := Machine.quiet_some h
    exact follows_take hl hx
  | dispatch w r =>
    obtain ⟨hx,rfl⟩ := Machine.quiet_some h
    exact follows_dispatch hl hx
  | log w =>
    obtain ⟨hx,rfl⟩ := Machine.quiet_some h
    exact follows_log hl (hfresh hg) hx
  | push w =>
    obtain ⟨hx,rfl⟩ := Machine.quiet_some h
    exact follows_push hl (hfresh hg) hx
  | send w x => exact follows_send hl h
  | finish w =>
    obtain ⟨hx,rfl⟩ := Machine.quiet_some h
    exact follows_finish hl hx
  | leave w =>
    obtain ⟨hx,rfl⟩ := Machine.quiet_some h
    obtain ⟨pool,-,rfl⟩ := Option.map_eq_some_iff.mp hx
    exact hl.idle hsame rfl rfl .inl
  | writerLoop e =>
    obtain ⟨hx,rfl⟩ := Machine.quiet_some h
    unfold writerLoop at hx
    split at hx
    · rename_i he
      exact hl.write (.inl he) hx
    · cases hx
  | stop =>
    obtain ⟨hx,rfl⟩ := Machine.quiet_some h
    unfold stop at hx
    split at hx <;> cases hx
    exact hl.idle hsame rfl rfl nofun
  | stopWriter e =>
    obtain ⟨hx,rfl⟩ := Machine.quiet_some h
    unfold stopWriter at hx
    split at hx
    · split at hx
      · rename_i he
        exact hl.write (.inr he) hx
      · cases hx
    · cases hx
  | close conn =>
    obtain ⟨hx,rfl⟩ := Machine.quiet_some h
    unfold close at hx
    split at hx
    · split at hx <;> cases hx
      exact hl.idle hsame rfl rfl .inl
    · cases hx
  | clear =>
    obtain ⟨hx,rfl⟩ := Machine.quiet_some h
    unfold clear at hx
    split at hx <;> cases hx
    rename_i hret _
    exact hl.idle (fun l => by simp [acknowledged]) rfl rfl fun _ => .inr hret
  | destruct =>
    obtain ⟨hx,rfl⟩ := Machine.quiet_some h
    unfold destruct at hx
    split at hx
    · obtain ⟨pool,-,rfl⟩ := Option.map_eq_some_iff.mp hx
      exact hl.idle hsame rfl rfl .inl
    · cases hx

theorem ledger_start (numThreads : Nat) (d : Dispatcher) (file : Str) (sockets : List Nat) :
    (start numThreads d file sockets).Ledger [] [] := by
  refine ⟨fun l => ?_,fun w errand hw => ?_⟩
  · have hnone : sending (start numThreads d file sockets) = [] := by
      simp [start, sending, List.filterMap_eq_nil_iff, Errand.line]
    have hheld : (start numThreads d file sockets).held = [] := rfl
    rw [hnone, hheld]
    exact Nat.zero_le _
  · simp [start, List.getElem?_replicate] at hw

end Shutdown

theorem early_logs_survive_shutdown (hash : Str → Nat) (numThreads : Nat) (d : Dispatcher)
    (file : Str) (sockets : List Nat) {es : List ShutdownEvent} {s : Shutdown}
    {os : List Delivery}
    (h : (shutdown hash).Run LoggedEarly (.start numThreads d file sockets) es s os)
    (hend : s.ended = true) :
    ∃ lines, s.writer.file = file ++ aofFile lines ∧ (acknowledged os).Subperm lines := by
  obtain ⟨ds,ps,hrun,hl,hstopped⟩ := h.component (N := aofWriter) (Q := StaysGood) Shutdown.writer
    (fun s os ps => s.Ledger os ps ∧ (s.teardown = .destroying → s.writer.stopping = .returned))
    ⟨Shutdown.ledger_start numThreads d file sockets,nofun⟩ (by
      intro s os ps e t o ⟨ds,hrun⟩ ⟨hl,hs⟩ hg hstep
      have hf := hl.step (fun hn => ((Writer.run_sound hrun).fresh hn).2.2.1) hg hstep
      have hret (ht : t.teardown = .destroying) : s.writer.stopping = .returned :=
        (hf.teardown ht).elim hs id
      rcases hf.writer with ⟨hw,hl'⟩ | ⟨e',p,hgood,hw,hl'⟩
      · exact .inl ⟨hw,hl',fun ht => by rw [hw]; exact hret ht⟩
      · exact .inr ⟨e',p,hgood,hw,hl',fun ht => (Shutdown.step_kept hw).1 (hret ht)⟩)
  simp only [Shutdown.ended, Bool.and_eq_true, decide_eq_true_eq] at hend
  obtain ⟨later,hfile,-⟩ := (Writer.run_sound hrun).stopped (hstopped hend.1)
  refine ⟨_,hfile,List.subperm_ext_iff.mpr fun l _ => ?_⟩
  have hc := hl.counts l
  rw [List.count_append]
  omega

instance (s : Shutdown) : DecidablePred (LoggedEarly s)
  | .log _ | .push _ => inferInstanceAs (Decidable (_ = _))
  | .submit _ | .flush _ | .hangUp _ | .sweep _ _ _ | .take _ | .dispatch _ _ | .send _ _
  | .finish _ | .leave _ | .writerLoop _ | .stop | .stopWriter _ | .close _ | .clear
  | .destruct => isTrue trivial

def setLogged : List ShutdownEvent :=
  [.submit ⟨0, ⟨.set, [['a'], ['1']]⟩⟩, .take 0, .dispatch 0 ⟨0, 0⟩, .log 0, .push 0, .stop,
    .stopWriter .stop, .stopWriter .requestStop, .writerLoop .collect, .writerLoop .write,
    .send 0 .whole, .finish 0, .writerLoop (.endBatch false), .writerLoop .collect,
    .stopWriter .join, .stopWriter .close, .close 0, .clear, .destruct, .destruct, .destruct,
    .destruct, .destruct, .leave 0, .destruct]

theorem logged_set_survives :
    ∃ s os, (shutdown (fun _ => 0)).Run LoggedEarly
        (.start 1 (.create (.create 48) none 0) [] [0]) setLogged s os ∧ s.ended = true ∧
      (∃ lines, s.writer.file = [] ++ aofFile lines ∧ (acknowledged os).Subperm lines) ∧
      acknowledged os = ["SET a 1".toList] :=
  ⟨_,_,Machine.run_of_exec (by decide +kernel),by decide +kernel,
    early_logs_survive_shutdown _ 1 _ [] [0] (Machine.run_of_exec (by decide +kernel))
      (by decide +kernel),by decide +kernel⟩

def setUnlogged : List ShutdownEvent :=
  [.submit ⟨0, ⟨.set, [['a'], ['1']]⟩⟩, .stop, .stopWriter .stop, .take 0, .dispatch 0 ⟨0, 0⟩,
    .log 0, .send 0 .whole, .finish 0, .stopWriter .requestStop, .writerLoop .collect,
    .stopWriter .join, .stopWriter .close, .close 0, .clear, .destruct, .destruct, .destruct,
    .destruct, .destruct, .leave 0, .destruct]

theorem late_set_lost :
    ∃ s os, (shutdown (fun _ => 0)).Run Machine.anyStep
        (.start 1 (.create (.create 48) none 0) [] [0]) setUnlogged s os ∧ s.ended = true ∧
      os = [⟨0, ⟨.set, [['a'], ['1']]⟩, okResponse⟩] ∧ s.writer.file = [] :=
  ⟨_,_,Machine.run_of_exec (by decide +kernel),by decide +kernel⟩

end CacheForge
