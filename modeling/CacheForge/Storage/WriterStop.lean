import CacheForge.Storage.WriterLoop

namespace CacheForge

def WriterEvent.ofStop : WriterEvent → Bool
  | .collect => true
  | .write => true
  | .endBatch _ => true
  | .join => true
  | .close => true
  | _ => false

def WriterEvent.isPush : WriterEvent → Bool
  | .push _ => true
  | _ => false

namespace Writer

def stageEffort (s : Writer) : Nat :=
  match s.stage with
  | .collecting => 3 * s.aof.queue.length + 1
  | .writing _ batch => 3 * s.aof.queue.length + batch.length + 2
  | .returned => 0

def stopEffort (s : Writer) : Nat :=
  match s.stopping with
  | .requested => 2
  | .joined => 1
  | _ => 0

def effort (s : Writer) : Nat := s.stageEffort + s.stopEffort

def Staged (s : Writer) : Prop :=
  match s.stopping with
  | .notCalled => s.stopRequested = false
  | .flagged => s.stopRequested = false
  | .requested => s.stopRequested = true
  | .joined => s.stopRequested = true ∧ s.stage = .returned
  | .returned => s.stopRequested = true ∧ s.stage = .returned

variable {s t : Writer} {e : WriterEvent} {o : List WriterOut}

theorem Staged.frame (h : s.Staged) (hs : t.stopping = s.stopping)
    (hr : t.stopRequested = s.stopRequested) (hg : s.stage = .returned → t.stage = .returned) :
    t.Staged := by
  unfold Staged at h ⊢
  rw [hs, hr]
  split <;> rename_i hstop <;> simp only [hstop] at h
  · exact h
  · exact h
  · exact h
  · exact ⟨h.1,hg h.2⟩
  · exact ⟨h.1,hg h.2⟩

theorem log_same {thread : Nat} {rec : Record} (h : s.log thread rec = some (t, o)) :
    t.aof = s.aof ∧ t.stage = s.stage ∧ t.stopping = s.stopping ∧
      t.stopRequested = s.stopRequested := by
  rcases (log_spec h).2 with ⟨rfl,-⟩ | ⟨rfl,-⟩ <;> exact ⟨rfl,rfl,rfl,rfl⟩

theorem flush_same (s : Writer) : s.flush.aof = s.aof ∧ s.flush.stopping = s.stopping ∧
    s.flush.stopRequested = s.stopRequested := by
  unfold flush
  split <;> exact ⟨rfl,rfl,rfl⟩

theorem Staged.step (h : s.Staged) (hstep : aofWriter.step s e = some (t, o)) : t.Staged := by
  cases e with
  | log thread rec =>
    obtain ⟨-,hg,hs,hr⟩ := log_same hstep
    exact h.frame hs hr fun hx => hg.trans hx
  | push thread =>
    simp only [aofWriter, push] at hstep
    split at hstep <;> cases hstep
    exact h.frame rfl rfl id
  | collect =>
    simp only [aofWriter, collect] at hstep
    split at hstep
    · rename_i hg
      split at hstep
      · cases hstep
        exact h.frame rfl rfl fun _ => rfl
      · split at hstep <;> cases hstep <;> exact h.frame rfl rfl (by simp [hg])
    · cases hstep
  | write =>
    simp only [aofWriter, write] at hstep
    split at hstep
    · rename_i hg
      split at hstep <;> cases hstep <;> exact h.frame rfl rfl (by simp [hg])
    · cases hstep
  | endBatch elapsed =>
    simp only [aofWriter, endBatch] at hstep
    split at hstep
    · rename_i hg
      cases hstep
      obtain ⟨-,hs,hq⟩ := flush_same s
      refine h.frame ?_ ?_ (by simp [hg])
      · split
        · exact hs
        · rfl
      · split
        · exact hq
        · rfl
    · cases hstep
  | spill count =>
    simp only [aofWriter, spill] at hstep
    split at hstep <;> cases hstep
    exact h.frame rfl rfl id
  | fail =>
    cases hstep
    exact h.frame rfl rfl id
  | stop =>
    simp only [aofWriter, stop] at hstep
    split at hstep <;> cases hstep
    rename_i hstop
    simpa [Staged, hstop] using h
  | requestStop =>
    simp only [aofWriter, requestStop] at hstep
    split at hstep <;> cases hstep
    rfl
  | join =>
    simp only [aofWriter, join] at hstep
    split at hstep <;> cases hstep
    rename_i hstop hg
    simpa [Staged, hstop, hg] using h
  | close =>
    simp only [aofWriter, close] at hstep
    split at hstep <;> cases hstep
    rename_i hstop
    simpa [Staged, hstop] using h

theorem effort_step (hr : s.stopRequested = true) (hstaged : s.Staged)
    (hstep : aofWriter.step s e = some (t, o)) :
    t.stopRequested = true ∧ t.effort + e.ofStop.toNat ≤ s.effort + 3 * e.isPush.toNat := by
  cases e with
  | log thread rec =>
    obtain ⟨ha,hg,hs,hreq⟩ := log_same hstep
    refine ⟨hreq.trans hr,?_⟩
    simp [effort, stageEffort, stopEffort, ha, hg, hs, WriterEvent.ofStop, WriterEvent.isPush]
  | push thread =>
    simp only [aofWriter, push] at hstep
    split at hstep <;> cases hstep
    refine ⟨hr,?_⟩
    simp only [effort, stageEffort, stopEffort, WriterEvent.ofStop, WriterEvent.isPush]
    cases s.stage <;> simp <;> omega
  | collect =>
    simp only [aofWriter, collect] at hstep
    split at hstep
    · rename_i hg
      split at hstep
      · rename_i hdone
        cases hstep
        refine ⟨hr,?_⟩
        simp [effort, stageEffort, stopEffort, WriterEvent.ofStop, hg, hdone.2]
        omega
      · rename_i hmore
        have hpos : 0 < s.aof.queue.length :=
          List.length_pos_of_ne_nil fun hnil => hmore ⟨hr,hnil⟩
        split at hstep <;> cases hstep <;> refine ⟨hr,?_⟩ <;>
          simp [effort, stageEffort, stopEffort, WriterEvent.ofStop, WriterEvent.isPush, hg] <;>
          omega
    · cases hstep
  | write =>
    simp only [aofWriter, write] at hstep
    split at hstep
    · rename_i hg
      split at hstep <;> cases hstep <;> refine ⟨hr,?_⟩ <;>
        simp [effort, stageEffort, stopEffort, WriterEvent.ofStop, WriterEvent.isPush, hg]
    · cases hstep
  | endBatch elapsed =>
    simp only [aofWriter, endBatch] at hstep
    split at hstep
    · rename_i hg
      cases hstep
      obtain ⟨ha,hs,hq⟩ := flush_same s
      refine ⟨?_,?_⟩
      · split
        · exact hq.trans hr
        · exact hr
      · split <;> simp [effort, stageEffort, stopEffort, WriterEvent.ofStop, WriterEvent.isPush,
          hg, ha, hs]
    · cases hstep
  | spill count =>
    simp only [aofWriter, spill] at hstep
    split at hstep <;> cases hstep
    exact ⟨hr,le_refl _⟩
  | fail =>
    cases hstep
    exact ⟨hr,le_refl _⟩
  | stop =>
    simp only [aofWriter, stop] at hstep
    split at hstep <;> cases hstep
    rename_i hstop
    simp [Staged, hstop, hr] at hstaged
  | requestStop =>
    simp only [aofWriter, requestStop] at hstep
    split at hstep <;> cases hstep
    rename_i hstop
    simp [Staged, hstop, hr] at hstaged
  | join =>
    simp only [aofWriter, join] at hstep
    split at hstep <;> cases hstep
    rename_i hstop hg
    exact ⟨hr,by simp [effort, stageEffort, stopEffort, WriterEvent.ofStop, hstop, hg]⟩
  | close =>
    simp only [aofWriter, close] at hstep
    split at hstep <;> cases hstep
    rename_i hstop
    exact ⟨hr,by simp [effort, stageEffort, stopEffort, WriterEvent.ofStop, hstop]⟩

theorem Staged.progress (h : s.Staged) (hr : s.stopRequested = true) :
    s.stopping = .returned ∨ ∃ e, e.ofStop = true ∧ (aofWriter.step s e).isSome = true := by
  cases hs : s.stopping with
  | notCalled | flagged => simp [Staged, hs, hr] at h
  | returned => exact .inl rfl
  | joined => exact .inr ⟨.close,rfl,by simp [aofWriter, close, hs]⟩
  | requested =>
    cases hg : s.stage with
    | returned => exact .inr ⟨.join,rfl,by simp [aofWriter, join, hs, hg]⟩
    | writing nonempty batch =>
      cases batch with
      | nil => exact .inr ⟨.endBatch false,rfl,by simp [aofWriter, endBatch, hg]⟩
      | cons command batch =>
        refine .inr ⟨.write,rfl,?_⟩
        cases hgood : s.good <;> simp [aofWriter, write, hg, hgood]
    | collecting =>
      refine .inr ⟨.collect,rfl,?_⟩
      simp only [aofWriter, collect, hg]
      split
      · rfl
      · cases s.isOpen <;> rfl

theorem effort_le (s : Writer) : s.effort ≤ 3 * s.aof.queue.length + s.batch.length + 4 := by
  have hstop : s.stopEffort ≤ 2 := by
    unfold stopEffort
    split <;> omega
  cases hg : s.stage <;> simp [effort, stageEffort, batch, hg] <;> omega

end Writer

theorem writer_stop_returns (file : Str) {es ds : List WriterEvent} {s t : Writer}
    {os ps : List WriterOut} (h : aofWriter.Run Machine.anyStep (.start file) es s os)
    (hstop : s.stopRequested = true) (hrun : aofWriter.Run Machine.anyStep s ds t ps) :
    ds.countP WriterEvent.ofStop ≤
        3 * s.aof.queue.length + s.batch.length + 4 + 3 * ds.countP WriterEvent.isPush ∧
      (t.stopping = .returned ∨
        ∃ e, e.ofStop = true ∧ (aofWriter.step t e).isSome = true) := by
  have hstaged : s.Staged := h.invariant (fun s _ => s.Staged) rfl
    fun _ _ _ _ _ hs _ hstep => hs.step hstep
  obtain ⟨hreq,hend,hle⟩ : t.stopRequested = true ∧ t.Staged ∧
      ds.countP WriterEvent.ofStop + t.effort ≤
        s.effort + 3 * ds.countP WriterEvent.isPush := by
    induction hrun with
    | nil => exact ⟨hstop,hstaged,by simp⟩
    | snoc _ _ hstep ih =>
      obtain ⟨hreq,hend,hle⟩ := ih
      obtain ⟨hreq',hle'⟩ := Writer.effort_step hreq hend hstep
      refine ⟨hreq',hend.step hstep,?_⟩
      rw [Machine.countP_snoc, Machine.countP_snoc]
      omega
  have hbound := s.effort_le
  exact ⟨by omega,hend.progress hreq⟩

def pushedLate : List WriterEvent :=
  [.collect, .push 1, .write, .fail, .endBatch true, .collect, .write, .endBatch false, .collect,
    .join, .close]

theorem late_push_stop_returns :
    ∃ s t os ps, aofWriter.Run Machine.anyStep (.start [])
        [.log 0 (.set ['k'] ['v']), .push 0, .log 1 (.del ['k']), .stop, .requestStop] s os ∧
      aofWriter.Run Machine.anyStep s pushedLate t ps ∧
      (pushedLate.countP WriterEvent.ofStop ≤
          3 * s.aof.queue.length + s.batch.length + 4 + 3 * pushedLate.countP WriterEvent.isPush ∧
        (t.stopping = .returned ∨
          ∃ e, e.ofStop = true ∧ (aofWriter.step t e).isSome = true)) ∧
      t.stopping = .returned :=
  ⟨_,_,_,_,Machine.run_of_exec (by decide +kernel),Machine.run_of_exec (by decide +kernel),
    writer_stop_returns _ (Machine.run_of_exec (by decide +kernel)) (by decide +kernel)
      (Machine.run_of_exec (by decide +kernel)),by decide +kernel⟩

end CacheForge
