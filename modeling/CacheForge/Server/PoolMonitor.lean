import CacheForge.Server.ThreadPool

namespace CacheForge

inductive Duty (T : Type) where
  | locking
  | testing
  | asleep
  | waking
  | popping
  | holding (task : T)
  | running (task : T)
  deriving DecidableEq, Repr

inductive Submission (T : Type) where
  | idle
  | entering (task : T)
  | inside (task : T)
  | pushed
  | notifying
  deriving DecidableEq, Repr

inductive Party where
  | worker (w : Nat)
  | submitter (c : Nat)
  deriving DecidableEq, Repr

structure PoolMonitor (T : Type) where
  workers : List (Duty T)
  submitters : List (Submission T)
  owner : Option Party
  tasks : List T
  deriving DecidableEq, Repr

inductive MonitorEvent (T : Type) where
  | call (c : Nat) (task : T)
  | enter (c : Nat)
  | push (c : Nat)
  | leave (c : Nat)
  | notifyOne (c : Nat) (woken : Option Nat)
  | lock (w : Nat)
  | test (w : Nat)
  | pop (w : Nat)
  | unlock (w : Nat)
  | finish (w : Nat)
  | spurious (w : Nat)
  deriving DecidableEq, Repr

variable {T : Type}

namespace MonitorEvent

@[simp] def isCall : MonitorEvent T → Bool
  | .call _ _ => true
  | _ => false

@[simp] def isSpurious : MonitorEvent T → Bool
  | .spurious _ => true
  | _ => false

@[simp] def isOwn (e : MonitorEvent T) : Bool := !e.isCall && !e.isSpurious

end MonitorEvent

namespace Duty

def holdsLock : Duty T → Bool
  | .testing | .popping | .holding _ => true
  | _ => false

def lookingOut : Duty T → Nat
  | .locking | .waking | .testing | .popping => 1
  | _ => 0

def isAsleep : Duty T → Bool
  | .asleep => true
  | _ => false

def slot : Duty T → Slot T
  | .holding task => .running task
  | .running task => .running task
  | _ => .waiting

end Duty

namespace Submission

def holdsLock : Submission T → Bool
  | .inside _ | .pushed => true
  | _ => false

def owesNotify : Submission T → Nat
  | .pushed | .notifying => 1
  | _ => 0

end Submission

namespace PoolMonitor

def create (numThreads submitters : Nat) : PoolMonitor T where
  workers := List.replicate (if numThreads = 0 then 1 else numThreads) .locking
  submitters := List.replicate submitters .idle
  owner := none
  tasks := []

def setWorker (w : Nat) (duty : Duty T) (p : PoolMonitor T) : PoolMonitor T :=
  { p with workers := p.workers.set w duty }

def setSubmitter (c : Nat) (x : Submission T) (p : PoolMonitor T) : PoolMonitor T :=
  { p with submitters := p.submitters.set c x }

inductive Step (p : PoolMonitor T) :
    MonitorEvent T → PoolMonitor T → List (PoolOut T) → Prop
  | call {c : Nat} {task : T} (hc : p.submitters[c]? = some .idle) :
      Step p (.call c task) (p.setSubmitter c (.entering task)) []
  | enter {c : Nat} {task : T} (hc : p.submitters[c]? = some (.entering task))
      (hfree : p.owner = none) :
      Step p (.enter c) { p.setSubmitter c (.inside task) with owner := some (.submitter c) } []
  | push {c : Nat} {task : T} (hc : p.submitters[c]? = some (.inside task)) :
      Step p (.push c) { p.setSubmitter c .pushed with tasks := p.tasks ++ [task] }
        [.submitted task]
  | leave {c : Nat} (hc : p.submitters[c]? = some .pushed) :
      Step p (.leave c) { p.setSubmitter c .notifying with owner := none } []
  | notifyNobody {c : Nat} (hc : p.submitters[c]? = some .notifying)
      (hnone : p.workers.any Duty.isAsleep = false) :
      Step p (.notifyOne c none) (p.setSubmitter c .idle) []
  | notifyOne {c w : Nat} (hc : p.submitters[c]? = some .notifying)
      (hw : p.workers[w]? = some .asleep) :
      Step p (.notifyOne c (some w)) ((p.setSubmitter c .idle).setWorker w .waking) []
  | lock {w : Nat} {duty : Duty T} (hw : p.workers[w]? = some duty)
      (hduty : duty = .locking ∨ duty = .waking) (hfree : p.owner = none) :
      Step p (.lock w) { p.setWorker w .testing with owner := some (.worker w) } []
  | sleep {w : Nat} (hw : p.workers[w]? = some .testing) (hempty : p.tasks = []) :
      Step p (.test w) { p.setWorker w .asleep with owner := none } []
  | proceed {w : Nat} (hw : p.workers[w]? = some .testing) (hsome : p.tasks ≠ []) :
      Step p (.test w) (p.setWorker w .popping) []
  | pop {w : Nat} {task : T} {tasks : List T} (hw : p.workers[w]? = some .popping)
      (htasks : p.tasks = task :: tasks) :
      Step p (.pop w) { p.setWorker w (.holding task) with tasks := tasks } []
  | unlock {w : Nat} {task : T} (hw : p.workers[w]? = some (.holding task)) :
      Step p (.unlock w) { p.setWorker w (.running task) with owner := none } []
  | finish {w : Nat} {task : T} (hw : p.workers[w]? = some (.running task)) :
      Step p (.finish w) (p.setWorker w .locking) [.executed task]
  | spurious {w : Nat} (hw : p.workers[w]? = some .asleep) :
      Step p (.spurious w) (p.setWorker w .waking) []

def next? (p : PoolMonitor T) :
    MonitorEvent T → Option (PoolMonitor T × List (PoolOut T))
  | .call c task =>
      match p.submitters[c]? with
      | some .idle => some (p.setSubmitter c (.entering task), [])
      | _ => none
  | .enter c =>
      match p.submitters[c]?, p.owner with
      | some (.entering task), none =>
          some ({ p.setSubmitter c (.inside task) with owner := some (.submitter c) }, [])
      | _, _ => none
  | .push c =>
      match p.submitters[c]? with
      | some (.inside task) =>
          some ({ p.setSubmitter c .pushed with tasks := p.tasks ++ [task] }, [.submitted task])
      | _ => none
  | .leave c =>
      match p.submitters[c]? with
      | some .pushed => some ({ p.setSubmitter c .notifying with owner := none }, [])
      | _ => none
  | .notifyOne c none =>
      match p.submitters[c]? with
      | some .notifying =>
          if p.workers.any Duty.isAsleep then none else some (p.setSubmitter c .idle, [])
      | _ => none
  | .notifyOne c (some w) =>
      match p.submitters[c]?, p.workers[w]? with
      | some .notifying, some .asleep => some ((p.setSubmitter c .idle).setWorker w .waking, [])
      | _, _ => none
  | .lock w =>
      match p.workers[w]?, p.owner with
      | some .locking, none =>
          some ({ p.setWorker w .testing with owner := some (.worker w) }, [])
      | some .waking, none =>
          some ({ p.setWorker w .testing with owner := some (.worker w) }, [])
      | _, _ => none
  | .test w =>
      match p.workers[w]?, p.tasks with
      | some .testing, [] => some ({ p.setWorker w .asleep with owner := none }, [])
      | some .testing, _ :: _ => some (p.setWorker w .popping, [])
      | _, _ => none
  | .pop w =>
      match p.workers[w]?, p.tasks with
      | some .popping, task :: tasks =>
          some ({ p.setWorker w (.holding task) with tasks := tasks }, [])
      | _, _ => none
  | .unlock w =>
      match p.workers[w]? with
      | some (.holding task) => some ({ p.setWorker w (.running task) with owner := none }, [])
      | _ => none
  | .finish w =>
      match p.workers[w]? with
      | some (.running task) => some (p.setWorker w .locking, [.executed task])
      | _ => none
  | .spurious w =>
      match p.workers[w]? with
      | some .asleep => some (p.setWorker w .waking, [])
      | _ => none

theorem step_cases {p q : PoolMonitor T} {e : MonitorEvent T} {os : List (PoolOut T)}
    (h : p.next? e = some (q, os)) : p.Step e q os := by
  cases e with
  | call c task =>
    simp only [next?] at h
    split at h
    · cases h
      exact .call ‹_›
    · cases h
  | enter c =>
    simp only [next?] at h
    split at h
    · cases h
      exact .enter ‹_› ‹_›
    · cases h
  | push c =>
    simp only [next?] at h
    split at h
    · cases h
      exact .push ‹_›
    · cases h
  | leave c =>
    simp only [next?] at h
    split at h
    · cases h
      exact .leave ‹_›
    · cases h
  | notifyOne c woken =>
    cases woken with
    | none =>
      simp only [next?] at h
      split at h
      · simp only [Option.ite_none_left_eq_some, Option.some.injEq, Prod.mk.injEq,
          Bool.not_eq_true] at h
        obtain ⟨hnone,rfl,rfl⟩ := h
        exact .notifyNobody ‹_› hnone
      · cases h
    | some w =>
      simp only [next?] at h
      split at h
      · cases h
        exact .notifyOne ‹_› ‹_›
      · cases h
  | lock w =>
    simp only [next?] at h
    split at h
    · cases h
      exact .lock ‹_› (.inl rfl) ‹_›
    · cases h
      exact .lock ‹_› (.inr rfl) ‹_›
    · cases h
  | test w =>
    simp only [next?] at h
    split at h
    · cases h
      exact .sleep ‹_› ‹_›
    · rename_i hw ht
      cases h
      exact .proceed hw (by simp [ht])
    · cases h
  | pop w =>
    simp only [next?] at h
    split at h
    · cases h
      exact .pop ‹_› ‹_›
    · cases h
  | unlock w =>
    simp only [next?] at h
    split at h
    · cases h
      exact .unlock ‹_›
    · cases h
  | finish w =>
    simp only [next?] at h
    split at h
    · cases h
      exact .finish ‹_›
    · cases h
  | spurious w =>
    simp only [next?] at h
    split at h
    · cases h
      exact .spurious ‹_›
    · cases h

def holds (p : PoolMonitor T) : Party → Bool
  | .worker w => (p.workers[w]?.map Duty.holdsLock).getD false
  | .submitter c => (p.submitters[c]?.map Submission.holdsLock).getD false

def lookingOut (p : PoolMonitor T) : Nat := (p.workers.map Duty.lookingOut).sum

def owedNotifies (p : PoolMonitor T) : Nat := (p.submitters.map Submission.owesNotify).sum

structure Sound (p : PoolMonitor T) : Prop where
  staffed : p.workers ≠ []
  mutex : ∀ party, p.holds party = true ↔ p.owner = some party
  popping : .popping ∈ p.workers → p.tasks ≠ []
  matched : .asleep ∈ p.workers → p.tasks.length ≤ p.lookingOut + p.owedNotifies

section

variable {p : PoolMonitor T} {owner : Option Party} {w c : Nat} {duty₀ duty : Duty T}
  {x₀ x : Submission T}

theorem holds_setWorker (hw : p.workers[w]? = some duty₀) (owner : Option Party)
    (tasks : List T) (party : Party) :
    PoolMonitor.holds { p.setWorker w duty with owner := owner, tasks := tasks } party =
      if party = .worker w then duty.holdsLock else p.holds party := by
  cases party with
  | worker v =>
    by_cases hv : v = w
    · simp [holds, setWorker, hv, (List.getElem?_eq_some_iff.mp hw).1]
    · simp [holds, setWorker, hv, List.getElem?_set_ne (Ne.symm hv)]
  | submitter d => simp [holds, setWorker]

theorem holds_setSubmitter (hc : p.submitters[c]? = some x₀) (owner : Option Party)
    (tasks : List T) (party : Party) :
    PoolMonitor.holds { p.setSubmitter c x with owner := owner, tasks := tasks } party =
      if party = .submitter c then x.holdsLock else p.holds party := by
  cases party with
  | worker v => simp [holds, setSubmitter]
  | submitter d =>
    by_cases hd : d = c
    · simp [holds, setSubmitter, hd, (List.getElem?_eq_some_iff.mp hc).1]
    · simp [holds, setSubmitter, hd, List.getElem?_set_ne (Ne.symm hd)]

theorem mutex_update {f : Party → Bool} {owner owner' : Option Party} {q : Party} {b : Bool}
    (h : ∀ r, f r = true ↔ owner = some r)
    (hmove : (b = f q ∧ owner' = owner) ∨ (owner = none ∧ b = true ∧ owner' = some q) ∨
      (f q = true ∧ b = false ∧ owner' = none)) (r : Party) :
    (if r = q then b else f r) = true ↔ owner' = some r := by
  by_cases hr : r = q
  · subst hr
    rcases hmove with ⟨rfl,rfl⟩ | ⟨-,rfl,rfl⟩ | ⟨-,rfl,rfl⟩
    · simpa using h r
    · simp
    · simp
  · rw [if_neg hr, h r]
    rcases hmove with ⟨-,rfl⟩ | ⟨rfl,-,rfl⟩ | ⟨hq,-,rfl⟩
    · rfl
    · simp [Ne.symm hr]
    · simp [(h q).mp hq, Ne.symm hr]

theorem Sound.worker (h : p.Sound) (hw : p.workers[w]? = some duty₀) {tasks : List T}
    (hmove : (duty.holdsLock = duty₀.holdsLock ∧ owner = p.owner) ∨
      (p.owner = none ∧ duty.holdsLock = true ∧ owner = some (.worker w)) ∨
      (duty₀.holdsLock = true ∧ duty.holdsLock = false ∧ owner = none))
    (hpop : duty = .popping → tasks ≠ []) (hkept : tasks ≠ [] ∨ p.tasks = [] ∨ duty₀ = .popping)
    (hbalance : tasks = [] ∨ duty ≠ .asleep ∧
      tasks.length + duty₀.lookingOut ≤ p.tasks.length + duty.lookingOut) :
    PoolMonitor.Sound { p.setWorker w duty with owner := owner, tasks := tasks } := by
  have hf : p.holds (.worker w) = duty₀.holdsLock := by simp [holds, hw]
  refine ⟨by simpa [setWorker] using h.staffed,fun party => ?_,fun hmem htasks => ?_,
    fun hmem => ?_⟩
  · rw [holds_setWorker hw]
    exact mutex_update h.mutex (hf ▸ hmove) party
  · obtain ⟨v,hv⟩ := List.getElem?_of_mem hmem
    by_cases hvw : v = w
    · subst hvw
      rw [setWorker, List.getElem?_set_self (List.getElem?_eq_some_iff.mp hw).1] at hv
      exact hpop (Option.some.inj hv) htasks
    · rw [setWorker, List.getElem?_set_ne (Ne.symm hvw)] at hv
      rcases hkept with hne | hnil | rfl
      · exact hne htasks
      · exact h.popping (List.mem_of_getElem? hv) hnil
      · have hmine := (h.mutex (.worker w)).mp (by simp [holds, hw, Duty.holdsLock])
        have hother := (h.mutex (.worker v)).mp (by simp [holds, hv, Duty.holdsLock])
        rw [hmine] at hother
        cases hother
        exact hvw rfl
  · rcases hbalance with rfl | ⟨hduty,hle⟩
    · simp
    · obtain ⟨frame,hold,hnew⟩ := Machine.sum_set Duty.lookingOut hw duty
      have hold' : Duty.asleep ∈ p.workers := by
        rcases List.mem_or_eq_of_mem_set hmem with hin | heq
        · exact hin
        · exact absurd heq.symm hduty
      have hm := h.matched hold'
      simp only [lookingOut, owedNotifies, setWorker] at hm ⊢
      omega

theorem Sound.submitter (h : p.Sound) (hc : p.submitters[c]? = some x₀) {tasks : List T}
    (hmove : (x.holdsLock = x₀.holdsLock ∧ owner = p.owner) ∨
      (p.owner = none ∧ x.holdsLock = true ∧ owner = some (.submitter c)) ∨
      (x₀.holdsLock = true ∧ x.holdsLock = false ∧ owner = none))
    (hkept : tasks ≠ [] ∨ p.tasks = [])
    (hbalance : .asleep ∈ p.workers →
      tasks.length + x₀.owesNotify ≤ p.lookingOut + p.owedNotifies + x.owesNotify) :
    PoolMonitor.Sound { p.setSubmitter c x with owner := owner, tasks := tasks } := by
  have hf : p.holds (.submitter c) = x₀.holdsLock := by simp [holds, hc]
  refine ⟨h.staffed,fun party => ?_,fun hmem htasks => ?_,fun hmem => ?_⟩
  · rw [holds_setSubmitter hc]
    exact mutex_update h.mutex (hf ▸ hmove) party
  · exact hkept.elim (fun hne => hne htasks) (h.popping hmem)
  · obtain ⟨frame,hold,hnew⟩ := Machine.sum_set Submission.owesNotify hc x
    have hle := hbalance hmem
    simp only [lookingOut, owedNotifies, setSubmitter] at hle ⊢
    omega

theorem sound_step {q : PoolMonitor T} {e : MonitorEvent T} {os : List (PoolOut T)}
    (h : p.Sound) (hstep : p.Step e q os) : q.Sound := by
  have hself : p.tasks ≠ [] ∨ p.tasks = [] := (em _).symm
  have hsame (n : Nat) (hmem : .asleep ∈ p.workers) :
      p.tasks.length + n ≤ p.lookingOut + p.owedNotifies + n :=
    Nat.add_le_add_right (h.matched hmem) n
  cases hstep with
  | call hc => exact h.submitter hc (.inl ⟨rfl,rfl⟩) hself (hsame 0)
  | enter hc hfree => exact h.submitter hc (.inr (.inl ⟨hfree,rfl,rfl⟩)) hself (hsame 0)
  | push hc =>
    refine h.submitter hc (.inl ⟨rfl,rfl⟩) (.inl (by simp)) fun hmem => ?_
    simpa [Submission.owesNotify] using h.matched hmem
  | leave hc => exact h.submitter hc (.inr (.inr ⟨rfl,rfl,rfl⟩)) hself (hsame 1)
  | notifyNobody hc hnone =>
    refine h.submitter hc (.inl ⟨rfl,rfl⟩) hself fun hmem => ?_
    have hx := List.any_eq_false.mp hnone _ hmem
    simp [Duty.isAsleep] at hx
  | @notifyOne c w hc hw =>
    have hwoken : (p.setWorker w .waking).Sound :=
      h.worker hw (.inl ⟨rfl,rfl⟩) nofun (hself.imp id .inl)
        (.inr ⟨nofun,by simp [Duty.lookingOut]⟩)
    refine hwoken.submitter hc (.inl ⟨rfl,rfl⟩) hself fun _ => ?_
    obtain ⟨frame,hold,hnew⟩ := Machine.sum_set Duty.lookingOut hw .waking
    have hm := h.matched (List.mem_of_getElem? hw)
    simp only [lookingOut, owedNotifies, setWorker, setSubmitter, Submission.owesNotify,
      Duty.lookingOut] at hm hold hnew ⊢
    omega
  | lock hw hduty hfree =>
    rcases hduty with rfl | rfl
    · exact h.worker hw (.inr (.inl ⟨hfree,rfl,rfl⟩)) nofun (hself.imp id .inl)
        (.inr ⟨nofun,le_rfl⟩)
    · exact h.worker hw (.inr (.inl ⟨hfree,rfl,rfl⟩)) nofun (hself.imp id .inl)
        (.inr ⟨nofun,le_rfl⟩)
  | sleep hw hempty =>
    exact h.worker hw (.inr (.inr ⟨rfl,rfl,rfl⟩)) nofun (.inr (.inl hempty)) (.inl hempty)
  | proceed hw hsome =>
    exact h.worker hw (.inl ⟨rfl,rfl⟩) (fun _ => hsome) (.inl hsome) (.inr ⟨nofun,le_rfl⟩)
  | pop hw htasks =>
    exact h.worker hw (.inl ⟨rfl,rfl⟩) nofun (.inr (.inr rfl))
      (.inr ⟨nofun,by simp [htasks, Duty.lookingOut]⟩)
  | unlock hw =>
    exact h.worker hw (.inr (.inr ⟨rfl,rfl,rfl⟩)) nofun (hself.imp id .inl) (.inr ⟨nofun,le_rfl⟩)
  | finish hw =>
    exact h.worker hw (.inl ⟨rfl,rfl⟩) nofun (hself.imp id .inl)
      (.inr ⟨nofun,by simp [Duty.lookingOut]⟩)
  | spurious hw =>
    exact h.worker hw (.inl ⟨rfl,rfl⟩) nofun (hself.imp id .inl)
      (.inr ⟨nofun,by simp [Duty.lookingOut]⟩)

end

theorem Sound.create (numThreads submitters : Nat) :
    (PoolMonitor.create numThreads submitters : PoolMonitor T).Sound := by
  refine ⟨?_,fun party => ?_,fun h => ?_,fun _ => by simp [PoolMonitor.create]⟩
  · rw [PoolMonitor.create, Ne, List.replicate_eq_nil_iff]
    split <;> omega
  · cases party with
    | worker w =>
      simp only [holds, PoolMonitor.create, List.getElem?_replicate]
      by_cases hw : w < if numThreads = 0 then 1 else numThreads <;> simp [hw, Duty.holdsLock]
    | submitter c =>
      simp only [holds, PoolMonitor.create, List.getElem?_replicate]
      split <;> simp [Submission.holdsLock]
  · cases List.eq_of_mem_replicate h

end PoolMonitor

def poolMonitor : Machine (PoolMonitor T) (MonitorEvent T) (PoolOut T) := ⟨PoolMonitor.next?⟩

end CacheForge
