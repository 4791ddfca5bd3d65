import CacheForge.Library.Transducer
import CacheForge.Protocol.Linearized
import CacheForge.Server.CleanReplies
import CacheForge.Server.Interest

namespace CacheForge

-- `front.dispatcher` is not used: the dispatcher and the dispatches under way are in `back`.
structure Serving (D : Type) where
  front : Server
  back : D

inductive ServingEvent (E : Type) where
  | front (e : Event)
  | back (e : E)

namespace Server

def notice (s : Server) (n : Nat × Notice) : Option (Server × List Out) :=
  match n.2, s.workers[n.1]? with
  | .called cmd, some (some ⟨_, .running cmd'⟩) => if cmd' = cmd then some (s, []) else none
  | .returned response, some (some ⟨c, .running cmd⟩) =>
      some (s.setWorker n.1 (some ⟨c, sendLoop response 0⟩), [.dispatched c cmd response])
  | _, _ => none

def hear : List (Nat × Notice) → Server → Option (Server × List Out)
  | [], s => some (s, [])
  | n :: ns, s => do
      let (s, o) ← s.notice n
      let (s, o') ← hear ns s
      return (s, o ++ o')

end Server

section

variable {D E D' E' : Type} (hash : Str → Nat) (M : Machine D E (Nat × Notice))

-- The dispatch on the loop thread is left out: `Server.sync_unreachable` shows it is never reached.
def serving : Machine (Serving D) (ServingEvent E) Out where
  step x e :=
    match e with
    | .front e =>
        if e.isFront then ((server hash).step x.front e).map fun y => (⟨y.1, x.back⟩, y.2) else none
    | .back e => do
        let (back, ns) ← M.step x.back e
        let (front, o) ← x.front.hear ns
        return (⟨front, back⟩, o)

def BackMeets (P : D → E → Prop) (x : Serving D) : ServingEvent E → Prop
  | .front _ => True
  | .back e => P x.back e

instance (P : D → E → Prop) [∀ s e, Decidable (P s e)] (x : Serving D) (e : ServingEvent E) :
    Decidable (BackMeets P x e) :=
  match e with
  | .front _ => isTrue trivial
  | .back e => inferInstanceAs (Decidable (P x.back e))

variable {hash M} {P : D → E → Prop}

namespace Server

variable {s t : Server} {n : Nat × Notice} {ns ms : List (Nat × Notice)} {o : List Out}

theorem notice_cases (h : s.notice n = some (t, o)) :
    (∃ w c cmd, n = (w, .called cmd) ∧ s.workers[w]? = some (some ⟨c, .running cmd⟩) ∧ t = s ∧
      o = []) ∨
    ∃ w c cmd response, n = (w, .returned response) ∧
      s.workers[w]? = some (some ⟨c, .running cmd⟩) ∧
      t = s.setWorker w (some ⟨c, sendLoop response 0⟩) ∧ o = [.dispatched c cmd response] := by
  obtain ⟨w,n⟩ := n
  unfold notice at h
  split at h
  · rename_i cmd c cmd' hn hw
    split at h
    · rename_i hcmd
      cases h
      exact .inl ⟨w,c,cmd,Prod.ext rfl hn,hcmd ▸ hw,rfl,rfl⟩
    · cases h
  · rename_i response c cmd hn hw
    cases h
    exact .inr ⟨w,c,cmd,response,Prod.ext rfl hn,hw,rfl,rfl⟩
  · cases h

theorem notice_projects (hs : s.Sound) (h : s.notice n = some (t, o)) (r : Readings) :
    Projects s t (.dispatch n.1 r) o := by
  rcases notice_cases h with ⟨w,c,cmd,rfl,-,rfl,rfl⟩ | ⟨w,c,cmd,response,rfl,hw,rfl,rfl⟩
  · exact ⟨hs.toTables,le_refl _,.inr ⟨fun _ => rfl,.inl rfl⟩,via_nil t,.inl (same_refl t)⟩
  · have hp := worker_projects hs (e := .dispatch w r) hw (x := s.conns c) rfl
      (some (sendLoop response 0)) (via_dispatched s c cmd response) (fun d hd => ?_)
      (a := .silent) trivial fun hph => ?_
    · rwa [setConn_self] at hp
    · simp [notes, Out.note, Ne.symm hd]
    · have hn : notes c [.dispatched c cmd response] = [.dispatched cmd response] := by
        simp [notes, Out.note]
      rw [hn]
      exact .dispatch cmd response hph

theorem hear_cons (h : s.hear (n :: ns) = some (t, o)) :
    ∃ u p q, s.notice n = some (u, p) ∧ u.hear ns = some (t, q) ∧ o = p ++ q := by
  simp only [hear, Option.bind_eq_bind, Option.bind_eq_some_iff] at h
  obtain ⟨⟨u,p⟩,hu,⟨v,q⟩,hv,heq⟩ := h
  cases heq
  exact ⟨u,p,q,hu,hv,rfl⟩

theorem hear_append (h : s.hear (ns ++ ms) = some (t, o)) :
    ∃ u p q, s.hear ns = some (u, p) ∧ u.hear ms = some (t, q) ∧ o = p ++ q := by
  induction ns generalizing s o with
  | nil => exact ⟨s,[],o,rfl,h,rfl⟩
  | cons n ns ih =>
    obtain ⟨v,p,q,hv,hq,rfl⟩ := hear_cons h
    obtain ⟨u,p',q',hu,ht,rfl⟩ := ih hq
    exact ⟨u,p ++ p',q',by simp [hear, hv, hu],ht,by simp⟩

theorem hear_invariant {I : Server → List Out → Prop}
    (hI : ∀ s os e t o, s.Sound → I s os → Projects s t e o → I t (os ++ o)) {os : List Out}
    (hs : s.Sound) (hi : I s os) (h : s.hear ns = some (t, o)) : t.Sound ∧ I t (os ++ o) := by
  induction ns generalizing s os o with
  | nil =>
    cases h
    exact ⟨hs,by rwa [List.append_nil]⟩
  | cons n ns ih =>
    obtain ⟨u,p,q,hu,hq,rfl⟩ := hear_cons h
    have hp := notice_projects hs hu ⟨0, 0⟩
    rw [← List.append_assoc]
    exact ih (hp.sound hs) (hI _ _ _ _ _ hs hi hp) hq

end Server

theorem front_spec {x y : Serving D} {e : Event} {o : List Out}
    (h : (serving hash M).step x (.front e) = some (y, o)) :
    e.isFront = true ∧ (server hash).step x.front e = some (y.front, o) ∧ y.back = x.back := by
  simp only [serving] at h
  split at h
  · rename_i he
    obtain ⟨⟨t,p⟩,hstep,heq⟩ := Option.map_eq_some_iff.mp h
    cases heq
    exact ⟨he,hstep,rfl⟩
  · cases h

theorem back_spec {x y : Serving D} {e : E} {o : List Out}
    (h : (serving hash M).step x (.back e) = some (y, o)) :
    ∃ ns, M.step x.back e = some (y.back, ns) ∧ x.front.hear ns = some (y.front, o) := by
  simp only [serving, Option.bind_eq_bind, Option.bind_eq_some_iff] at h
  obtain ⟨⟨back,ns⟩,hback,⟨front,p⟩,hfront,heq⟩ := h
  cases heq
  exact ⟨ns,hback,hfront⟩

theorem serving_front {x y : Serving D} {e : Event} {o : List Out} (he : e.isFront = true)
    (h : (server hash).step x.front e = some (y.front, o)) (hy : y.back = x.back) :
    (serving hash M).step x (.front e) = some (y, o) := by
  obtain ⟨front,back⟩ := y
  subst hy
  simp [serving, he, h]

namespace Serving

variable {x₀ x y : Serving D} {es : List (ServingEvent E)} {os : List Out}

theorem run_projects {Q : Serving D → ServingEvent E → Prop} {I : Server → List Out → Prop}
    (hs : x₀.front.Sound) (h₀ : I x₀.front [])
    (hI : ∀ s os e t o, s.Sound → I s os → Server.Projects s t e o → I t (os ++ o))
    (h : (serving hash M).Run Q x₀ es x os) : x.front.Sound ∧ I x.front os := by
  refine h.invariant (fun x os => x.front.Sound ∧ I x.front os) ⟨hs,h₀⟩ ?_
  rintro x os (e | e) y o ⟨hx,hi⟩ - hstep
  · obtain ⟨-,hfront,-⟩ := front_spec hstep
    have hp := Server.step_projects hx hfront
    exact ⟨hp.sound hx,hI _ _ _ _ _ hx hi hp⟩
  · obtain ⟨ns,-,hhear⟩ := back_spec hstep
    exact Server.hear_invariant hI hx hi hhear

theorem run_back (h : (serving hash M).Run (BackMeets P) x₀ es x os) :
    ∃ ds ns, M.Run P x₀.back ds x.back ns := by
  obtain ⟨ds,ns,hrun,-⟩ := h.component (N := M) (Q := P) Serving.back (fun _ _ _ => True) trivial
    (by
      rintro x os ps (e | e) y o - - hg hstep
      · exact .inl ⟨(front_spec hstep).2.2,trivial⟩
      · obtain ⟨ns,hback,-⟩ := back_spec hstep
        exact .inr ⟨e,ns,hg,hback,trivial⟩)
  exact ⟨ds,ns,hrun⟩

theorem run_lift {a b : D} {ds : List E} {ns : List (Nat × Notice)} {s t : Server} {o : List Out}
    (h : M.Run P a ds b ns) (hh : s.hear ns = some (t, o)) :
    (serving hash M).Run (BackMeets P) ⟨s, a⟩ (ds.map .back) ⟨t, b⟩ o := by
  induction h generalizing t o with
  | nil =>
    cases hh
    exact .nil
  | @snoc ds b ns e c ms h hg hstep ih =>
    obtain ⟨u,p,q,hu,ht,rfl⟩ := Server.hear_append hh
    have hnext : (serving hash M).step ⟨u, b⟩ (.back e) = some (⟨t, c⟩, q) := by
      simp [serving, hstep, ht]
    rw [List.map_append]
    exact Machine.Run.snoc (P := BackMeets P) (ih hu) hg hnext

theorem simulation {N : Machine D' E' (Nat × Notice)} {Q : D' → E' → Prop} (R : D → D' → Prop)
    {a₀ : D'} (h₀ : R x₀.back a₀)
    (hstep : ∀ s a e t o, R s a → P s e → M.step s e = some (t, o) →
      ∃ ds b, N.Run Q a ds b o ∧ R t b)
    (h : (serving hash M).Run (BackMeets P) x₀ es x os) :
    ∃ ds b, (serving hash N).Run (BackMeets Q) ⟨x₀.front, a₀⟩ ds ⟨x.front, b⟩ os ∧ R x.back b := by
  let S (x : Serving D) (y : Serving D') : Prop := y.front = x.front ∧ R x.back y.back
  have hstart : S x₀ ⟨x₀.front, a₀⟩ := ⟨rfl,h₀⟩
  obtain ⟨ds,⟨front,b⟩,hrun,hfront,hr⟩ := Machine.Run.simulation (N := serving hash N)
    (Q := BackMeets Q) S hstart (by
      rintro x ⟨front,a⟩ (e | e) y o ⟨rfl,hr⟩ hg hs
      · obtain ⟨he,hfront,hback⟩ := front_spec hs
        refine ⟨[.front e],⟨y.front, a⟩,.single trivial (serving_front he hfront rfl),rfl,?_⟩
        rwa [hback]
      · obtain ⟨ns,hback,hhear⟩ := back_spec hs
        obtain ⟨ds,b,hrun,hb⟩ := hstep _ _ _ _ _ hr hg hback
        exact ⟨ds.map .back,⟨y.front, b⟩,run_lift hrun hhear,rfl,hb⟩) h
  obtain rfl : front = x.front := hfront
  exact ⟨ds,b,hrun,hr⟩

end Serving

end

namespace Server

variable {hash : Str → Nat} {s t : Server} {e : Event} {os o : List Out}

theorem undispatched_exchanges (h : Undispatched o) (c : Nat) : exchanges (notes c o) = [] := by
  refine List.filterMap_eq_nil_iff.mpr fun n hn => ?_
  obtain ⟨x,hx,hnote⟩ := List.mem_filterMap.mp hn
  cases n with
  | dispatched cmd response =>
    cases x with
    | dispatched d cmd' response' => exact absurd hx (h d cmd' response')
    | received | extracted | sent | failed =>
      simp only [Out.note] at hnote
      split at hnote <;> cases hnote
  | _ => rfl

theorem Sound.alone (hs : s.Sound) {v w c : Nat} {p q : Progress}
    (hv : s.workers[v]? = some (some ⟨c, p⟩)) (hw : s.workers[w]? = some (some ⟨c, q⟩)) :
    v = w := by
  by_contra hne
  have hnone : (s.setWorker w none).phases c = [] := (phases_self (hs.single c) hw none).2
  have hv' : (s.setWorker w none).workers[v]? = some (some ⟨c, p⟩) := by
    rw [setWorker, List.getElem?_set_ne (Ne.symm hne), hv]
  have hmem : Phase.working p ∈ (s.setWorker w none).phases c :=
    List.mem_append_right _ (List.mem_filterMap.mpr
      ⟨_,List.mem_of_getElem? hv',by simp [Job.phase]⟩)
  rw [hnone] at hmem
  cases hmem

variable (hash) in
theorem front_blocked (he : e.isFront = true) {w c : Nat} {cmd : Command}
    (hw : s.workers[w]? = some (some ⟨c, .running cmd⟩)) (hworker : e.worker = some w) :
    (server hash).step s e = none := by
  cases e with
  | take v | queue v | clear v =>
    cases hworker
    simp [server, quietly, take, workerQueue, workerClear, hw]
  | send v x =>
    cases hworker
    simp [server, workerSend, hw]
  | dispatch v r => cases he
  | _ => cases hworker

theorem front_running (hs : s.Sound) (he : e.isFront = true)
    (h : (server hash).step s e = some (t, o)) {w c : Nat} {cmd : Command}
    (hw : s.workers[w]? = some (some ⟨c, .running cmd⟩)) :
    t.workers[w]? = some (some ⟨c, .running cmd⟩) := by
  cases hworker : e.worker with
  | none => rw [(loop_step hs h hworker).1, hw]
  | some v =>
    obtain ⟨-,-,slot,hset⟩ := step_slot h hworker
    have hne : v ≠ w := by
      rintro rfl
      cases (front_blocked hash he hw hworker).symm.trans h
    rw [hset, List.getElem?_set_ne hne, hw]

def Heard (s : Server) (os : List Out) : Prop :=
  ∀ c, ∀ cmd ∈ (s.link c).held, ∃ line, Out.extracted c line ∈ os ∧ parseCommand line = cmd

theorem heard_start (numThreads : Nat) (d : Dispatcher) : (start numThreads d).Heard [] := by
  intro c cmd hcmd
  rw [(sound_start numThreads d).blank c (Nat.zero_le c)] at hcmd
  cases hcmd

theorem extracted_note {c : Nat} {cmd : Command} (h : cmd ∈ extracted (notes c o)) :
    ∃ line, Out.extracted c line ∈ o ∧ parseCommand line = cmd := by
  obtain ⟨line,hline,rfl⟩ := List.mem_map.mp h
  obtain ⟨note,hnote,hl⟩ := List.mem_filterMap.mp hline
  obtain ⟨x,hx,hn⟩ := List.mem_filterMap.mp hnote
  refine ⟨line,?_,rfl⟩
  cases note with
  | extracted line' =>
    cases hl
    cases x with
    | extracted d line' =>
      rcases eq_or_ne d c with rfl | hne
      · simp only [Out.note, if_true, Option.some.injEq, Note.extracted.injEq] at hn
        exact hn ▸ hx
      · simp [Out.note, hne] at hn
    | received d k chunk | dispatched d k response | sent d k bytes | failed d =>
      simp only [Out.note] at hn
      split at hn <;> cases hn
  | _ => cases hl

theorem Heard.projects (h : s.Heard os) (hp : Projects s t e o) : t.Heard (os ++ o) := by
  intro c cmd hcmd
  have hold : cmd ∈ (s.link c).held → ∃ line, Out.extracted c line ∈ os ++ o ∧
      parseCommand line = cmd := by
    intro hm
    obtain ⟨line,hline,hparse⟩ := h c cmd hm
    exact ⟨line,List.mem_append_left _ hline,hparse⟩
  rcases hp.cases c with hsame | ⟨-,-,a,ha,-⟩
  · exact hold (hsame.1 ▸ hcmd)
  · obtain ⟨lost,hflow,-⟩ := link_flow ha
    have hm : cmd ∈ (s.link c).held ++ extracted (notes c o) := by
      rw [hflow]
      simp [hcmd]
    rcases List.mem_append.mp hm with hm | hm
    · exact hold hm
    · obtain ⟨line,hline,hparse⟩ := extracted_note hm
      exact ⟨line,List.mem_append_right _ hline,hparse⟩

def InOrder (s : Server) (os : List Out) : Prop :=
  ∀ c, (dispatched (notes c os) ++ (s.link c).held).Sublist (extracted (notes c os))

theorem inOrder_start (numThreads : Nat) (d : Dispatcher) : (start numThreads d).InOrder [] := by
  intro c
  rw [(sound_start numThreads d).blank c (Nat.zero_le c)]
  exact List.Sublist.refl _

theorem InOrder.projects (h : s.InOrder os) (hp : Projects s t e o) : t.InOrder (os ++ o) := by
  intro c
  rw [notes_append]
  rcases hp.cases c with ⟨hlink,-,hnotes⟩ | ⟨-,-,a,ha,-⟩
  · rw [hnotes, List.append_nil, hlink]
    exact h c
  · exact link_order ha (h c)

end Server

end CacheForge
