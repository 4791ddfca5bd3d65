import CacheForge.Library.Machine

namespace CacheForge

inductive Slot (T : Type) where
  | waiting
  | running (task : T)
  | exited
  deriving DecidableEq, Repr

structure Worker (T : Type) where
  slot : Slot T
  stopRequested : Bool
  deriving DecidableEq, Repr

inductive Lifetime where
  | alive
  | body
  | withoutCv
  | withoutMutex
  | joined (count : Nat)
  | joining (worker : Nat)
  deriving DecidableEq, Repr

structure ThreadPool (T : Type) where
  workers : List (Worker T)
  tasks : List T
  lifetime : Lifetime
  deriving DecidableEq, Repr

inductive PoolEvent (T : Type) where
  | submit (task : T)
  | take (w : Nat)
  | finish (w : Nat)
  | leave (w : Nat)
  | destruct
  deriving DecidableEq, Repr

inductive PoolOut (T : Type) where
  | submitted (task : T)
  | executed (task : T)
  deriving DecidableEq, Repr

variable {T : Type}

def Slot.task : Slot T → Option T
  | .running task => some task
  | _ => none

def Lifetime.holdsTasks : Lifetime → Bool
  | .joined _ => false
  | .joining _ => false
  | _ => true

def Lifetime.left : Lifetime → Nat
  | .joined count => count
  | .joining worker => worker
  | _ => 0

namespace ThreadPool

def create (numThreads : Nat) : ThreadPool T where
  workers := List.replicate (if numThreads = 0 then 1 else numThreads) ⟨.waiting, false⟩
  tasks := []
  lifetime := .alive

def setSlot (w : Nat) (worker : Worker T) (slot : Slot T) (p : ThreadPool T) : ThreadPool T :=
  { p with workers := p.workers.set w { worker with slot := slot } }

def submit (task : T) (p : ThreadPool T) : Option (ThreadPool T) :=
  if p.lifetime.holdsTasks then some { p with tasks := p.tasks ++ [task] } else none

def take (w : Nat) (p : ThreadPool T) : Option (ThreadPool T) :=
  match p.workers[w]?, p.tasks with
  | some ⟨.waiting, stop⟩, task :: tasks =>
      some ({ p with tasks := tasks }.setSlot w ⟨.waiting, stop⟩ (.running task))
  | _, _ => none

def finish (w : Nat) (p : ThreadPool T) : Option (ThreadPool T × T) :=
  match p.workers[w]? with
  | some ⟨.running task, stop⟩ => some (p.setSlot w ⟨.running task, stop⟩ .waiting, task)
  | _ => none

def leave (w : Nat) (p : ThreadPool T) : Option (ThreadPool T) :=
  match p.workers[w]?, p.tasks with
  | some ⟨.waiting, true⟩, [] => some (p.setSlot w ⟨.waiting, true⟩ .exited)
  | _, _ => none

def destruct (p : ThreadPool T) : Option (ThreadPool T) :=
  match p.lifetime with
  | .alive => some { p with lifetime := .body }
  | .body => some { p with lifetime := .withoutCv }
  | .withoutCv => some { p with lifetime := .withoutMutex }
  | .withoutMutex => some { p with tasks := [], lifetime := .joined 0 }
  | .joined count =>
      match p.workers[count]? with
      | some worker =>
          some { p with
            workers := p.workers.set count { worker with stopRequested := true }
            lifetime := .joining count }
      | none => none
  | .joining w =>
      match p.workers[w]? with
      | some ⟨.exited, _⟩ => some { p with lifetime := .joined (w + 1) }
      | _ => none

def destroyed (p : ThreadPool T) : Bool := p.lifetime = .joined p.workers.length

def inHand (p : ThreadPool T) : List T := p.workers.filterMap (fun worker => worker.slot.task)

end ThreadPool

def threadPool : Machine (ThreadPool T) (PoolEvent T) (PoolOut T) where
  step p e :=
    match e with
    | .submit task => (p.submit task).map (fun q => (q, [.submitted task]))
    | .take w => Machine.quiet (p.take w)
    | .finish w => (p.finish w).map (fun r => (r.1, [.executed r.2]))
    | .leave w => Machine.quiet (p.leave w)
    | .destruct => Machine.quiet p.destruct

def submitted (os : List (PoolOut T)) : List T :=
  os.filterMap fun | .submitted task => some task | .executed _ => none

def executed (os : List (PoolOut T)) : List T :=
  os.filterMap fun | .submitted _ => none | .executed task => some task

namespace ThreadPool

theorem inHand_setSlot {p : ThreadPool T} {w : Nat} {worker : Worker T}
    (h : p.workers[w]? = some worker) (slot : Slot T) :
    ∃ a b, p.inHand = a ++ worker.slot.task.toList ++ b ∧
      (p.setSlot w worker slot).inHand = a ++ slot.task.toList ++ b :=
  Machine.filterMap_set (fun worker => worker.slot.task) h _

structure Sound (p : ThreadPool T) (os : List (PoolOut T)) : Prop where
  custody : (executed os ++ (p.inHand ++ p.tasks)).Perm (submitted os)
  gone : p.lifetime.holdsTasks = false → p.tasks = []
  joined : ∀ w worker, w < p.lifetime.left → p.workers[w]? = some worker → worker.slot = .exited

section

variable {p q : ThreadPool T} {os : List (PoolOut T)}

theorem executed_append (os ps : List (PoolOut T)) :
    executed (os ++ ps) = executed os ++ executed ps :=
  List.filterMap_append ..

theorem submitted_append (os ps : List (PoolOut T)) :
    submitted (os ++ ps) = submitted os ++ submitted ps :=
  List.filterMap_append ..

theorem setSlot_joined (hp : p.Sound os) {w : Nat} {worker : Worker T}
    (hw : p.workers[w]? = some worker) (hne : worker.slot ≠ .exited) (slot : Slot T) :
    ∀ v other, v < p.lifetime.left → (p.setSlot w worker slot).workers[v]? = some other →
      other.slot = .exited := by
  intro v other hv hother
  rcases eq_or_ne w v with rfl | hwv
  · exact absurd (hp.joined w worker hv hw) hne
  · rw [setSlot, List.getElem?_set_ne hwv] at hother
    exact hp.joined v other hv hother

theorem Sound.submit (hp : p.Sound os) {task : T} (h : p.submit task = some q) :
    q.Sound (os ++ [.submitted task]) := by
  unfold ThreadPool.submit at h
  split at h
  · rename_i hl
    cases h
    refine ⟨?_,fun hg => absurd (hl.symm.trans hg) (by simp),hp.joined⟩
    rw [executed_append, submitted_append]
    simpa [executed, submitted, inHand, List.append_assoc] using hp.custody.append_right [task]
  · cases h

theorem Sound.take (hp : p.Sound os) {w : Nat} (h : p.take w = some q) : q.Sound (os ++ []) := by
  unfold ThreadPool.take at h
  split at h
  · rename_i stop task tasks hw ht
    cases h
    obtain ⟨a,b,ha,hb⟩ := inHand_setSlot hw (.running task)
    rw [List.append_nil]
    refine ⟨?_,fun hg => ?_,setSlot_joined hp hw (by simp) _⟩
    · refine List.Perm.trans (List.Perm.append_left _ ?_) hp.custody
      have hq : ({ p with tasks := tasks }.setSlot w ⟨.waiting, stop⟩ (.running task)).inHand =
        a ++ [task] ++ b := hb
      rw [hq, ha, ht]
      simpa [Slot.task, setSlot] using (List.perm_middle.symm).append_left a
    · have hnil := hp.gone hg
      simp [ht] at hnil
  · cases h

theorem Sound.finish (hp : p.Sound os) {w : Nat} {task : T} (h : p.finish w = some (q, task)) :
    q.Sound (os ++ [.executed task]) := by
  unfold ThreadPool.finish at h
  split at h
  · rename_i task stop hw
    cases h
    obtain ⟨a,b,ha,hb⟩ := inHand_setSlot hw .waiting
    refine ⟨?_,hp.gone,setSlot_joined hp hw (by simp) _⟩
    rw [executed_append, submitted_append, hb]
    have hc := hp.custody
    rw [ha] at hc
    refine List.Perm.trans ?_ (hc.trans (by simp [submitted]))
    simpa [executed, Slot.task, setSlot] using List.perm_middle.symm.append_left (executed os)
  · cases h

theorem Sound.leave (hp : p.Sound os) {w : Nat} (h : p.leave w = some q) :
    q.Sound (os ++ []) := by
  unfold ThreadPool.leave at h
  split at h
  · rename_i hw ht
    cases h
    obtain ⟨a,b,ha,hb⟩ := inHand_setSlot hw .exited
    rw [List.append_nil]
    refine ⟨?_,hp.gone,setSlot_joined hp hw (by simp) _⟩
    have hc := hp.custody
    rw [ha] at hc
    rw [hb]
    exact hc
  · cases h

theorem Sound.destruct (hp : p.Sound os) (hempty : p.lifetime = .withoutMutex → p.tasks = [])
    (h : p.destruct = some q) : q.Sound (os ++ []) := by
  rw [List.append_nil]
  unfold ThreadPool.destruct at h
  split at h
  · cases h
    exact ⟨hp.custody,nofun,nofun⟩
  · cases h
    exact ⟨hp.custody,nofun,nofun⟩
  · cases h
    exact ⟨hp.custody,nofun,nofun⟩
  · rename_i hl
    cases h
    have hc := hp.custody
    rw [hempty hl] at hc
    exact ⟨hc,fun _ => rfl,nofun⟩
  · rename_i count hl
    split at h
    · rename_i worker hw
      cases h
      obtain ⟨a,b,ha,hb⟩ := Machine.filterMap_set (fun worker : Worker T => worker.slot.task) hw
        { worker with stopRequested := true }
      refine ⟨?_,fun _ => hp.gone (by rw [hl]; rfl),?_⟩
      · have hc := hp.custody
        rw [inHand, ha] at hc
        rw [inHand, hb]
        exact hc
      · intro v other hv hother
        have hne : count ≠ v := Nat.ne_of_gt hv
        rw [List.getElem?_set_ne hne] at hother
        exact hp.joined v other (by rw [hl]; exact hv) hother
    · cases h
  · rename_i w hl
    split at h
    · rename_i stop hw
      cases h
      refine ⟨hp.custody,fun _ => hp.gone (by rw [hl]; rfl),?_⟩
      intro v other hv hother
      rcases Nat.lt_succ_iff_lt_or_eq.mp hv with hlt | rfl
      · exact hp.joined v other (by rw [hl]; exact hlt) hother
      · cases hw.symm.trans hother
        rfl
    · cases h

def EmptiedFirst (p : ThreadPool T) (e : PoolEvent T) : Prop :=
  e = .destruct → p.lifetime = .withoutMutex → p.tasks = []

theorem Sound.step {e : PoolEvent T} {o : List (PoolOut T)} (hp : p.Sound os)
    (hg : p.EmptiedFirst e) (h : threadPool.step p e = some (q, o)) : q.Sound (os ++ o) := by
  cases e with
  | submit task =>
    obtain ⟨r,hq,hr⟩ := Option.map_eq_some_iff.mp h
    cases hr
    exact hp.submit hq
  | take w =>
    obtain ⟨hq,rfl⟩ := Machine.quiet_some h
    exact hp.take hq
  | finish w =>
    obtain ⟨r,hq,hr⟩ := Option.map_eq_some_iff.mp h
    cases hr
    exact hp.finish hq
  | leave w =>
    obtain ⟨hq,rfl⟩ := Machine.quiet_some h
    exact hp.leave hq
  | destruct =>
    obtain ⟨hq,rfl⟩ := Machine.quiet_some h
    exact hp.destruct (hg rfl) hq

theorem Sound.inHand_nil (hp : p.Sound os) (h : p.destroyed = true) : p.inHand = [] := by
  have hl : p.lifetime = .joined p.workers.length := by simpa [destroyed] using h
  rw [inHand, List.filterMap_eq_nil_iff]
  intro worker hm
  obtain ⟨w,hw⟩ := List.mem_iff_getElem?.mp hm
  have hlt : w < p.workers.length := (List.getElem?_eq_some_iff.mp hw).1
  rw [hp.joined w worker (by rw [hl]; exact hlt) hw]
  rfl

end

end ThreadPool

theorem emptied_pool_executes_all (numThreads : Nat) {es : List (PoolEvent T)} {p : ThreadPool T}
    {os : List (PoolOut T)}
    (h : threadPool.Run ThreadPool.EmptiedFirst (.create numThreads) es p os)
    (hd : p.destroyed = true) : (executed os).Perm (submitted os) := by
  have hp : p.Sound os := by
    refine h.invariant (fun p os => p.Sound os) ?_ ?_
    · refine ⟨?_,nofun,nofun⟩
      simp [executed, submitted, ThreadPool.create, ThreadPool.inHand, Slot.task]
    · intro p os e q o hp hg hstep
      exact hp.step hg hstep
  have hl : p.lifetime = .joined p.workers.length := by simpa [ThreadPool.destroyed] using hd
  have hc := hp.custody
  rw [hp.inHand_nil hd, hp.gone (by rw [hl]; rfl)] at hc
  simpa using hc

instance [DecidableEq T] (p : ThreadPool T) : DecidablePred p.EmptiedFirst :=
  fun _ => inferInstanceAs (Decidable (_ → _))

def drainedEvents : List (PoolEvent Nat) :=
  [.submit 1, .submit 2, .take 1, .destruct, .take 0, .destruct, .finish 1, .destruct, .destruct,
    .destruct, .finish 0, .leave 0, .destruct, .destruct, .leave 1, .destruct]

theorem drained_pool_executes :
    ∃ p os, threadPool.Run ThreadPool.EmptiedFirst (.create 2) drainedEvents p os ∧
      p.destroyed = true ∧ (executed os).Perm (submitted os) ∧ submitted os = [1, 2] :=
  ⟨_,_,Machine.run_of_exec (by decide +kernel),by decide +kernel,
    emptied_pool_executes_all 2 (Machine.run_of_exec (by decide +kernel)) (by decide +kernel),
    by decide +kernel⟩

theorem queued_task_dropped :
    ∃ p os, threadPool.Run Machine.anyStep (.create 1)
        [.submit 7, .destruct, .destruct, .destruct, .destruct, .destruct, .leave 0, .destruct]
        p os ∧
      p.destroyed = true ∧ submitted os = [7] ∧ executed os = [] :=
  ⟨_,_,Machine.run_of_exec (by decide +kernel),by decide +kernel⟩

end CacheForge
