import CacheForge.Server.PoolMonitor

namespace CacheForge

variable {T : Type}

namespace PoolMonitor

theorem run_sound {numThreads submitters : Nat} {es : List (MonitorEvent T)} {p : PoolMonitor T}
    {os : List (PoolOut T)}
    (h : poolMonitor.Run Machine.anyStep (.create numThreads submitters) es p os) : p.Sound :=
  h.invariant (fun p _ => p.Sound) (Sound.create numThreads submitters)
    fun _ _ _ _ _ hp _ hstep => sound_step hp (step_cases hstep)

def pool (p : PoolMonitor T) : ThreadPool T :=
  ⟨p.workers.map (fun duty => ⟨duty.slot, false⟩), p.tasks, .alive⟩

theorem pool_still {p q : PoolMonitor T} {w : Nat} {duty₀ duty : Duty T}
    (hw : p.workers[w]? = some duty₀) (hworkers : q.workers = p.workers.set w duty)
    (htasks : q.tasks = p.tasks) (hslot : duty.slot = duty₀.slot) : q.pool = p.pool := by
  obtain ⟨a,b,hl,hset⟩ := Machine.exists_set hw duty
  rw [pool, pool, hworkers, htasks, hset, hl]
  simp [hslot]

theorem pool_step {p q : PoolMonitor T} {e : MonitorEvent T} {os : List (PoolOut T)}
    (h : p.Step e q os) :
    ∃ es, threadPool.Run ThreadPool.EmptiedFirst p.pool es q.pool os := by
  have hat {w : Nat} {duty : Duty T} (hw : p.workers[w]? = some duty) :
      p.pool.workers[w]? = some ⟨duty.slot, false⟩ := by simp [pool, hw]
  have hstill {r : PoolMonitor T} (hr : r.pool = p.pool) :
      ∃ es, threadPool.Run ThreadPool.EmptiedFirst p.pool es r.pool [] := ⟨[],hr ▸ .nil⟩
  cases h with
  | call hc => exact hstill rfl
  | enter hc hfree => exact hstill rfl
  | @push c task hc => exact ⟨[.submit task],.single (by simp [ThreadPool.EmptiedFirst]) rfl⟩
  | leave hc => exact hstill rfl
  | notifyNobody hc hnone => exact hstill rfl
  | notifyOne hc hw => exact hstill (pool_still hw rfl rfl rfl)
  | lock hw hduty hfree =>
    exact hstill (pool_still hw rfl rfl (by rcases hduty with rfl | rfl <;> rfl))
  | sleep hw hempty => exact hstill (pool_still hw rfl rfl rfl)
  | proceed hw hsome => exact hstill (pool_still hw rfl rfl rfl)
  | @pop w task tasks hw htasks =>
    refine ⟨[.take w],.single (by simp [ThreadPool.EmptiedFirst]) ?_⟩
    have hp : p.pool.tasks = task :: tasks := htasks
    simp only [threadPool, ThreadPool.take, hat hw, hp, Duty.slot]
    simp [Machine.quiet, pool, setWorker, ThreadPool.setSlot, List.map_set, Duty.slot]
  | unlock hw => exact hstill (pool_still hw rfl rfl rfl)
  | @finish w task hw =>
    refine ⟨[.finish w],.single (by simp [ThreadPool.EmptiedFirst]) ?_⟩
    simp only [threadPool, ThreadPool.finish, hat hw, Duty.slot]
    simp [pool, setWorker, ThreadPool.setSlot, List.map_set, Duty.slot]
  | spurious hw => exact hstill (pool_still hw rfl rfl rfl)

theorem run_pool {numThreads submitters : Nat} {es : List (MonitorEvent T)} {p : PoolMonitor T}
    {os : List (PoolOut T)}
    (h : poolMonitor.Run Machine.anyStep (.create numThreads submitters) es p os) :
    ∃ ds, threadPool.Run ThreadPool.EmptiedFirst (.create numThreads) ds p.pool os := by
  have hstart : (PoolMonitor.create numThreads submitters : PoolMonitor T).pool =
      .create numThreads := by simp [pool, PoolMonitor.create, ThreadPool.create, Duty.slot]
  have hrun := h.simulation (N := threadPool) (Q := ThreadPool.EmptiedFirst)
    (fun p q => q = p.pool) rfl (by
      rintro p _ e q o rfl - hstep
      obtain ⟨ds,hr⟩ := pool_step (step_cases hstep)
      exact ⟨ds,_,hr,rfl⟩)
  obtain ⟨ds,q,hr,rfl⟩ := hrun
  exact ⟨ds,hstart ▸ hr⟩

section

variable {p : PoolMonitor T}

theorem Sound.lock_free (h : p.Sound)
    (hstuck : ∀ e : MonitorEvent T, e.isOwn = true → p.next? e = none) : p.owner = none := by
  cases ho : p.owner with
  | none => rfl
  | some party =>
    have hholds := (h.mutex party).mpr ho
    cases party with
    | worker w =>
      cases hw : p.workers[w]? with
      | none => simp [holds, hw] at hholds
      | some duty =>
        have htest := hstuck (.test w) rfl
        have hpop := hstuck (.pop w) rfl
        have hunlock := hstuck (.unlock w) rfl
        cases duty with
        | testing => cases ht : p.tasks <;> simp [next?, hw, ht] at htest
        | popping =>
          obtain ⟨task,tasks,ht⟩ := List.exists_cons_of_ne_nil
            (h.popping (List.mem_of_getElem? hw))
          simp [next?, hw, ht] at hpop
        | holding task => simp [next?, hw] at hunlock
        | _ => simp [holds, hw, Duty.holdsLock] at hholds
    | submitter c =>
      cases hc : p.submitters[c]? with
      | none => simp [holds, hc] at hholds
      | some x =>
        have hpush := hstuck (.push c) rfl
        have hleave := hstuck (.leave c) rfl
        cases x with
        | inside task => simp [next?, hc] at hpush
        | pushed => simp [next?, hc] at hleave
        | _ => simp [holds, hc, Submission.holdsLock] at hholds

theorem Sound.all_asleep (h : p.Sound)
    (hstuck : ∀ e : MonitorEvent T, e.isOwn = true → p.next? e = none) :
    ∀ duty ∈ p.workers, duty = .asleep := by
  intro duty hmem
  obtain ⟨w,hw⟩ := List.getElem?_of_mem hmem
  have hfree := h.lock_free hstuck
  have hholds : duty.holdsLock = false := by
    have hm := h.mutex (.worker w)
    simpa [holds, hw, hfree] using hm
  have hlock := hstuck (.lock w) rfl
  have hfinish := hstuck (.finish w) rfl
  cases duty with
  | asleep => rfl
  | locking => simp [next?, hw, hfree] at hlock
  | waking => simp [next?, hw, hfree] at hlock
  | running task => simp [next?, hw] at hfinish
  | testing => cases hholds
  | popping => cases hholds
  | holding task => cases hholds

theorem Sound.all_idle (h : p.Sound)
    (hstuck : ∀ e : MonitorEvent T, e.isOwn = true → p.next? e = none) :
    ∀ x ∈ p.submitters, x = .idle := by
  intro x hmem
  obtain ⟨c,hc⟩ := List.getElem?_of_mem hmem
  have hfree := h.lock_free hstuck
  have hholds : x.holdsLock = false := by
    have hm := h.mutex (.submitter c)
    simpa [holds, hc, hfree] using hm
  obtain ⟨duty,hduty⟩ := List.exists_mem_of_ne_nil _ h.staffed
  obtain ⟨w,hw⟩ := List.getElem?_of_mem hduty
  rw [h.all_asleep hstuck duty hduty] at hw
  have henter := hstuck (.enter c) rfl
  have hnotify := hstuck (.notifyOne c (some w)) rfl
  cases x with
  | idle => rfl
  | entering task => simp [next?, hc, hfree] at henter
  | notifying => simp [next?, hc, hw] at hnotify
  | inside task => cases hholds
  | pushed => cases hholds

theorem Sound.drained (h : p.Sound)
    (hstuck : ∀ e : MonitorEvent T, e.isOwn = true → p.next? e = none) : p.tasks = [] := by
  obtain ⟨duty,hduty⟩ := List.exists_mem_of_ne_nil _ h.staffed
  have hm := h.matched (h.all_asleep hstuck duty hduty ▸ hduty)
  have hlook : p.lookingOut = 0 := by
    refine List.sum_eq_zero fun n hn => ?_
    obtain ⟨d,hd,rfl⟩ := List.mem_map.mp hn
    rw [h.all_asleep hstuck d hd]
    rfl
  have howed : p.owedNotifies = 0 := by
    refine List.sum_eq_zero fun n hn => ?_
    obtain ⟨x,hx,rfl⟩ := List.mem_map.mp hn
    rw [h.all_idle hstuck x hx]
    rfl
  rw [hlook, howed] at hm
  exact List.eq_nil_of_length_eq_zero (Nat.le_zero.mp hm)

end

@[simp] def dutyEffort : Duty T → Nat
  | .asleep => 0
  | .popping => 0
  | .testing => 1
  | .locking => 2
  | .waking => 2
  | .running _ => 3
  | .holding _ => 4

@[simp] def submissionEffort : Submission T → Nat
  | .idle => 0
  | .notifying => 3
  | .pushed => 4
  | .inside _ => 10
  | .entering _ => 11

def effort (p : PoolMonitor T) : Nat :=
  (p.workers.map dutyEffort).sum + (p.submitters.map submissionEffort).sum + 5 * p.tasks.length

theorem effort_worker {p q : PoolMonitor T} {w a b d : Nat} {duty₀ duty : Duty T}
    (hw : p.workers[w]? = some duty₀) (hworkers : q.workers = p.workers.set w duty)
    (hsubmitters : q.submitters = p.submitters)
    (hle : a + dutyEffort duty + 5 * q.tasks.length ≤
      dutyEffort duty₀ + 5 * p.tasks.length + b + d) : a + q.effort ≤ p.effort + b + d := by
  obtain ⟨frame,hold,hnew⟩ := Machine.sum_set dutyEffort hw duty
  rw [effort, effort, hworkers, hsubmitters, hold, hnew]
  omega

theorem effort_submitter {p q : PoolMonitor T} {c a b d : Nat} {x₀ x : Submission T}
    (hc : p.submitters[c]? = some x₀) (hsubmitters : q.submitters = p.submitters.set c x)
    (hworkers : q.workers = p.workers)
    (hle : a + submissionEffort x + 5 * q.tasks.length ≤
      submissionEffort x₀ + 5 * p.tasks.length + b + d) : a + q.effort ≤ p.effort + b + d := by
  obtain ⟨frame,hold,hnew⟩ := Machine.sum_set submissionEffort hc x
  rw [effort, effort, hworkers, hsubmitters, hold, hnew]
  omega

theorem effort_step {p q : PoolMonitor T} {e : MonitorEvent T} {os : List (PoolOut T)}
    (h : p.Step e q os) :
    [e].countP MonitorEvent.isOwn + q.effort ≤
      p.effort + 11 * [e].countP MonitorEvent.isCall + 2 * [e].countP MonitorEvent.isSpurious := by
  cases h with
  | call hc => exact effort_submitter hc rfl rfl (by simp [setSubmitter]; omega)
  | enter hc hfree => exact effort_submitter hc rfl rfl (by simp [setSubmitter])
  | push hc => exact effort_submitter hc rfl rfl (by simp; omega)
  | leave hc => exact effort_submitter hc rfl rfl (by simp [setSubmitter])
  | notifyNobody hc hnone => exact effort_submitter hc rfl rfl (by simp [setSubmitter])
  | @notifyOne c w hc hw =>
    obtain ⟨frame,hold,hnew⟩ := Machine.sum_set dutyEffort hw .waking
    obtain ⟨frame',hold',hnew'⟩ := Machine.sum_set submissionEffort hc .idle
    simp only [effort, setWorker, setSubmitter, hold, hnew, hold', hnew']
    simp
    omega
  | lock hw hduty hfree =>
    rcases hduty with rfl | rfl <;> exact effort_worker hw rfl rfl (by simp [setWorker])
  | sleep hw hempty => exact effort_worker hw rfl rfl (by simp [setWorker])
  | proceed hw hsome => exact effort_worker hw rfl rfl (by simp [setWorker])
  | pop hw htasks => exact effort_worker hw rfl rfl (by simp [htasks]; omega)
  | unlock hw => exact effort_worker hw rfl rfl (by simp [setWorker])
  | finish hw => exact effort_worker hw rfl rfl (by simp [setWorker])
  | spurious hw => exact effort_worker hw rfl rfl (by simp [setWorker]; omega)

theorem run_effort {p₀ p : PoolMonitor T} {es : List (MonitorEvent T)} {os : List (PoolOut T)}
    (h : poolMonitor.Run Machine.anyStep p₀ es p os) :
    es.countP MonitorEvent.isOwn + p.effort ≤
      p₀.effort + 11 * es.countP MonitorEvent.isCall + 2 * es.countP MonitorEvent.isSpurious := by
  induction h with
  | nil => simp
  | snoc _ _ hstep ih =>
    have hs := effort_step (step_cases hstep)
    simp only [List.countP_append]
    omega

theorem run_fifo {numThreads submitters : Nat} {es : List (MonitorEvent T)} {p : PoolMonitor T}
    {os : List (PoolOut T)}
    (h : poolMonitor.Run Machine.anyStep (.create numThreads submitters) es p os) :
    ∃ taken, submitted os = taken ++ p.tasks := by
  refine h.invariant (fun p os => ∃ taken, submitted os = taken ++ p.tasks) ⟨[],rfl⟩ ?_
  rintro p os e q o ⟨taken,ht⟩ - hstep
  rw [ThreadPool.submitted_append, ht]
  cases step_cases hstep with
  | @push c task hc => exact ⟨taken,by simp [submitted]⟩
  | @pop w task tasks hw htasks => exact ⟨taken ++ [task],by simp [submitted, htasks]⟩
  | _ => exact ⟨taken,by simp [submitted, setWorker, setSubmitter]⟩

theorem run_custody {numThreads submitters : Nat} {es : List (MonitorEvent T)}
    {p : PoolMonitor T} {os : List (PoolOut T)}
    (h : poolMonitor.Run Machine.anyStep (.create numThreads submitters) es p os) :
    (executed os ++ (p.pool.inHand ++ p.tasks)).Perm (submitted os) := by
  obtain ⟨ds,hpool⟩ := run_pool h
  have hsound : p.pool.Sound os := by
    refine hpool.invariant (fun q os => q.Sound os) ⟨?_,nofun,nofun⟩
      fun _ _ _ _ _ hq hg hstep => hq.step hg hstep
    simp [executed, submitted, ThreadPool.create, ThreadPool.inHand, Slot.task]
  exact hsound.custody

theorem inHand_asleep {p : PoolMonitor T} (h : ∀ duty ∈ p.workers, duty = .asleep) :
    p.pool.inHand = [] := by
  rw [ThreadPool.inHand, List.filterMap_eq_nil_iff]
  intro worker hmem
  obtain ⟨duty,hduty,rfl⟩ := List.mem_map.mp hmem
  rw [h duty hduty]
  rfl

end PoolMonitor

theorem no_lost_wakeup (numThreads submitters : Nat) {es : List (MonitorEvent T)}
    {p : PoolMonitor T} {os : List (PoolOut T)}
    (h : poolMonitor.Run Machine.anyStep (.create numThreads submitters) es p os) :
    (.asleep ∈ p.workers → p.tasks.length ≤ p.lookingOut + p.owedNotifies) ∧
      ((∀ e : MonitorEvent T, e.isOwn = true → poolMonitor.step p e = none) →
        (∀ duty ∈ p.workers, duty = .asleep) ∧ p.tasks = [] ∧
          (executed os).Perm (submitted os)) := by
  have hp := PoolMonitor.run_sound h
  refine ⟨hp.matched,fun hstuck => ⟨hp.all_asleep hstuck,hp.drained hstuck,?_⟩⟩
  have hc := PoolMonitor.run_custody h
  rw [PoolMonitor.inHand_asleep (hp.all_asleep hstuck), hp.drained hstuck] at hc
  simpa using hc

def taskHandedOver : List (MonitorEvent Nat) :=
  [.lock 0, .test 0, .lock 1, .test 1, .call 0 7, .enter 0, .push 0, .leave 0, .notifyOne 0 (some 1),
    .spurious 0, .lock 1, .test 1, .pop 1, .unlock 1, .lock 0, .test 0, .finish 1]

theorem pushed_task_awaited :
    ∃ p os, poolMonitor.Run Machine.anyStep (.create 2 1) (taskHandedOver.take 9) p os ∧
      ((.asleep ∈ p.workers → p.tasks.length ≤ p.lookingOut + p.owedNotifies) ∧
        ((∀ e : MonitorEvent Nat, e.isOwn = true → poolMonitor.step p e = none) →
          (∀ duty ∈ p.workers, duty = .asleep) ∧ p.tasks = [] ∧
            (executed os).Perm (submitted os))) ∧
      p.workers = [.asleep, .waking] ∧ p.tasks = [7] :=
  ⟨_,_,Machine.run_of_exec (by decide +kernel),
    no_lost_wakeup 2 1 (Machine.run_of_exec (by decide +kernel)),by decide +kernel,
    by decide +kernel⟩

theorem submissions_take_bounded_work (numThreads submitters : Nat) {es : List (MonitorEvent T)}
    {p : PoolMonitor T} {os : List (PoolOut T)}
    (h : poolMonitor.Run Machine.anyStep (.create numThreads submitters) es p os) :
    es.countP MonitorEvent.isOwn ≤ 2 * max 1 numThreads +
      11 * es.countP MonitorEvent.isCall + 2 * es.countP MonitorEvent.isSpurious := by
  have hr := PoolMonitor.run_effort h
  have hstart : (PoolMonitor.create numThreads submitters : PoolMonitor T).effort =
      2 * max 1 numThreads := by
    simp only [PoolMonitor.effort, PoolMonitor.create, List.map_replicate, List.sum_replicate,
      PoolMonitor.dutyEffort, PoolMonitor.submissionEffort, smul_eq_mul, List.length_nil]
    split <;> omega
  omega

theorem handed_over_task_bounded :
    ∃ p os, poolMonitor.Run Machine.anyStep (.create 2 1) taskHandedOver p os ∧
      taskHandedOver.countP MonitorEvent.isOwn ≤ 2 * max 1 2 +
        11 * taskHandedOver.countP MonitorEvent.isCall +
          2 * taskHandedOver.countP MonitorEvent.isSpurious :=
  ⟨_,_,Machine.run_of_exec (by decide +kernel),
    submissions_take_bounded_work 2 1 (Machine.run_of_exec (by decide +kernel))⟩

theorem monitor_refines_pool (numThreads submitters : Nat) {es : List (MonitorEvent T)}
    {p : PoolMonitor T} {os : List (PoolOut T)}
    (h : poolMonitor.Run Machine.anyStep (.create numThreads submitters) es p os) :
    (∃ ds, threadPool.Run ThreadPool.EmptiedFirst (.create numThreads) ds p.pool os) ∧
      ∃ taken, submitted os = taken ++ p.tasks ∧ (executed os ++ p.pool.inHand).Perm taken := by
  obtain ⟨taken,ht⟩ := PoolMonitor.run_fifo h
  refine ⟨PoolMonitor.run_pool h,taken,ht,?_⟩
  have hc := PoolMonitor.run_custody h
  rw [ht, ← List.append_assoc] at hc
  exact (List.perm_append_right_iff _).mp hc

theorem handed_over_task_executed :
    ∃ p os, poolMonitor.Run Machine.anyStep (.create 2 1) taskHandedOver p os ∧
      ((∃ ds, threadPool.Run ThreadPool.EmptiedFirst (.create 2) ds p.pool os) ∧
        ∃ taken, submitted os = taken ++ p.tasks ∧ (executed os ++ p.pool.inHand).Perm taken) ∧
      executed os = [7] ∧ p.tasks = [] :=
  ⟨_,_,Machine.run_of_exec (by decide +kernel),
    monitor_refines_pool 2 1 (Machine.run_of_exec (by decide +kernel)),by decide +kernel,
    by decide +kernel⟩

end CacheForge
