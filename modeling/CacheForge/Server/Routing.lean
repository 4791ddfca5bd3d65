import CacheForge.Server.Pipeline

namespace CacheForge

def Progress.sends : Progress → Bool
  | .running _ => true
  | .sending _ _ => true
  | _ => false

def Phase.sends : Phase → Bool
  | .queued _ => true
  | .working p => p.sends

def Note.routed : Note → Bool
  | .received _ => true
  | .sent _ => true
  | _ => false

def Link.Busy (v : Link) : Prop :=
  v.stage ≠ none ∨ ∃ q, v.phase = some q ∧ q.sends = true

theorem link_sends {v w : Link} {a : Act} {ms : List Note} (hstep : LinkStep v a w ms) {p : Phase}
    (h : w.phase = some p) (hp : p.sends = true) : v.Busy := by
  cases hstep with
  | accepted => cases h
  | submitted out cmd commands hv hn => exact .inl (by simp [hv])
  | take cmd hv => exact .inr ⟨_,hv,rfl⟩
  | dispatch cmd response hv => exact .inr ⟨_,hv,rfl⟩
  | send response n o hv ho => exact .inr ⟨_,hv,rfl⟩
  | queue =>
    cases h
    cases hp
  | clear => cases h
  | _ => exact .inr ⟨p,h,hp⟩

theorem link_routes {v w : Link} {a : Act} {ms : List Note} (hstep : LinkStep v a w ms) {n : Note}
    (h : n ∈ ms) (hn : n.routed = true) : v.Busy := by
  cases hstep with
  | recv out o hv ho => exact .inl (by simp [hv])
  | flush out o hv ho => exact .inl (by simp [hv])
  | send response totalSent o hv ho => exact .inr ⟨_,hv,rfl⟩
  | dispatch =>
    obtain rfl := List.mem_singleton.mp h
    cases hn
  | _ => cases h

namespace Server

def Reuses (fd : Nat) (s : Server) : Prop :=
  (∃ task ∈ s.tasks, (s.conns task.conn).fd = fd) ∨
    ∃ slot ∈ s.workers, ∃ job ∈ slot, job.progress.sends = true ∧ (s.conns job.conn).fd = fd

instance (fd : Nat) (s : Server) : Decidable (s.Reuses fd) := inferInstanceAs (Decidable (_ ∨ _))

theorem reuses_phase {s : Server} {c : Nat} {p : Phase} (h : p ∈ s.phases c)
    (hp : p.sends = true) : s.Reuses (s.conns c).fd := by
  rcases List.mem_append.mp h with hm | hm
  · obtain ⟨task,ht,hph⟩ := List.mem_filterMap.mp hm
    rcases eq_or_ne task.conn c with rfl | hc
    · exact .inl ⟨task,ht,rfl⟩
    · simp [Task.phase, hc] at hph
  · obtain ⟨slot,hs,hph⟩ := List.mem_filterMap.mp hm
    cases slot with
    | none => cases hph
    | some job =>
      rcases eq_or_ne job.conn c with rfl | hc
      · simp only [Job.phase, if_true, Option.some.injEq] at hph
        subst hph
        exact .inr ⟨_,hs,job,rfl,hp,rfl⟩
      · simp [Job.phase, hc] at hph

theorem Projects.busy {s t : Server} {e : Event} {o : List Out} (h : Projects s t e o) {c : Nat}
    {p : Phase} (hm : (t.link c).phase = some p) (hp : p.sends = true) : (s.link c).Busy := by
  rcases h.cases c with hc | ⟨-,-,a,ha,-⟩
  · rw [hc.1] at hm
    exact .inr ⟨p,hm,hp⟩
  · exact link_sends ha hm hp

theorem Projects.routes {s t : Server} {e : Event} {o : List Out} (h : Projects s t e o) {c : Nat}
    {n : Note} (hm : n ∈ notes c o) (hn : n.routed = true) : (s.link c).Busy := by
  rcases h.cases c with hc | ⟨-,-,a,ha,-⟩
  · rw [hc.2.2] at hm
    cases hm
  · exact link_routes ha hm hn

theorem socket_site {s : Server} (hs : s.Tables) {c : Nat} (h : s.stage c ≠ none) :
    s.socket c = some c := by
  cases hl : s.loop with
  | none => simp [stage, hl] at h
  | some x =>
    obtain ⟨site,p⟩ := x
    rcases eq_or_ne site.conn c with rfl | hc
    · have hsite := hs.site _ _ hl
      rw [socket, (hs.owner _ _ hsite).2, hs.kernel, hsite]
    · simp [stage, hl, hc] at h

theorem Keeps.socket {s t : Server} (h : Keeps s t) (c : Nat) :
    t.socket c = s.socket c ∨ t.socket c = none := by
  rcases h.table with ht | ⟨fd,ht⟩
  · exact .inl (by rw [Server.socket, Server.socket, h.fd, ht])
  · rw [Server.socket, h.fd, ht]
    rcases eq_or_ne (s.conns c).fd fd with hfd | hfd
    · exact .inr (by rw [hfd, Function.update_self])
    · exact .inl (by rw [Function.update_of_ne hfd, Server.socket])

def Routed (s : Server) : Prop :=
  ∀ c p, (s.link c).phase = some p → p.sends = true → s.socket c = none ∨ s.socket c = some c

theorem Routed.busy {s : Server} (h : s.Routed) (hs : s.Tables) {c : Nat} (hb : (s.link c).Busy) :
    s.socket c = none ∨ s.socket c = some c := by
  rcases hb with hst | ⟨p,hp,hps⟩
  · exact .inr (socket_site hs hst)
  · exact h c p hp hps

def FreshFd (s : Server) : Event → Prop
  | .accept fd => ¬ s.Reuses fd
  | _ => True

instance (s : Server) : DecidablePred s.FreshFd
  | .accept _ => inferInstanceAs (Decidable (¬ _))
  | .ready _ _ _ _ | .loop | .answer _ | .recv _ | .flush _ | .take _ | .dispatch _ _ | .send _ _
  | .queue _ | .clear _ | .sweep _ _ _ => isTrue trivial

theorem socket_addConnection {s : Server} {fd c : Nat} (hc : c ≠ s.accepted)
    (hfd : (s.conns c).fd ≠ fd) : (s.addConnection fd).socket c = s.socket c := by
  simp [socket, addConnection, hc, hfd]

theorem Routed.step {s t : Server} {e : Event} {o : List Out} (h : s.Routed) (hs : s.Sound)
    (hp : Projects s t e o) (hg : s.FreshFd e) : t.Routed := by
  intro c p hph hsends
  have hb := hp.busy hph hsends
  rcases hp.keeps with ⟨fd,rfl,rfl⟩ | hk
  · have hps : (s.link c).phase = some p := hph
    have hm : p ∈ s.phases c := List.mem_of_head? hps
    have hfd : (s.conns c).fd ≠ fd := by
      rintro rfl
      exact hg (reuses_phase hm hsends)
    have hc : c ≠ s.accepted := by
      rintro rfl
      rw [hs.blank s.accepted le_rfl] at hps
      cases hps
    rw [socket_addConnection hc hfd]
    exact h.busy hs.toTables hb
  · rcases hk.socket c with heq | hn
    · rw [heq]
      exact h.busy hs.toTables hb
    · exact .inl hn

theorem note_of_route {x : Out} {c k : Nat} (h : x.route = some (c, k)) :
    ∃ n, x.note c = some n ∧ n.routed = true := by
  cases x with
  | received conn sock chunk =>
    cases h
    exact ⟨.received chunk,by simp [Out.note],rfl⟩
  | sent conn sock bytes =>
    cases h
    exact ⟨.sent bytes,by simp [Out.note],rfl⟩
  | extracted | dispatched | failed => cases h

theorem Routed.outs {s t : Server} {e : Event} {o : List Out} (h : s.Routed) (hs : s.Sound)
    (hp : Projects s t e o) {x : Out} (hx : x ∈ o) {c k : Nat} (hr : x.route = some (c, k)) :
    k = c := by
  obtain ⟨n,hn,hrn⟩ := note_of_route hr
  have hm : n ∈ notes c o := List.mem_filterMap.mpr ⟨x,hx,hn⟩
  have hk := hp.via x hx c k hr
  rcases h.busy hs.toTables (hp.routes hm hrn) with hnone | hsome
  · rw [hk] at hnone
    cases hnone
  · rw [hk] at hsome
    exact Option.some.inj hsome

theorem run_routed {hash : Str → Nat} {numThreads : Nat} {d : Dispatcher} {es : List Event}
    {s : Server} {os : List Out} (h : (server hash).Run FreshFd (start numThreads d) es s os) :
    ∀ x ∈ os, ∀ c k, x.route = some (c, k) → k = c := by
  refine (h.invariant (fun s os => s.Sound ∧ s.Routed ∧
    ∀ x ∈ os, ∀ c k, x.route = some (c, k) → k = c) ?_ ?_).2.2
  · have hs := sound_start numThreads d
    refine ⟨hs,?_,fun _ hx => nomatch hx⟩
    intro c p hp
    rw [hs.blank c (Nat.zero_le c)] at hp
    cases hp
  · intro s os e t o ⟨hs,hr,hos⟩ hg hstep
    have hp := step_projects hs hstep
    refine ⟨hp.sound hs,hr.step hs hp hg,?_⟩
    intro x hx c k hrt
    rcases List.mem_append.mp hx with hm | hm
    · exact hos x hm c k hrt
    · exact hr.outs hs hp hm hrt

end Server

theorem responses_reach_their_client (hash : Str → Nat) (numThreads : Nat) (d : Dispatcher)
    {es : List Event} {s : Server} {os : List Out}
    (h : (server hash).Run Server.FreshFd (.start numThreads d) es s os) :
    (∀ c sock bytes, Out.sent c sock bytes ∈ os → sock = c) ∧
    (∀ c sock chunk, Out.received c sock chunk ∈ os → sock = c) ∧
    ∀ c, (dispatched (notes c os)).Sublist (extracted (notes c os)) := by
  refine ⟨?_,?_,?_⟩
  · intro c sock bytes hm
    exact Server.run_routed h _ hm c sock rfl
  · intro c sock chunk hm
    exact Server.run_routed h _ hm c sock rfl
  · intro c
    exact (List.sublist_append_left _ _).trans (dispatched_in_order hash numThreads d c h)

def hangUpThenSend : List Event :=
  [.accept 5, .ready 5 false true false, .loop, .recv (.bytes "SET k v\n".toList), .loop, .loop,
    .loop, .loop, .loop, .take 0, .ready 5 true false false, .accept 6, .dispatch 0 ⟨0, 0⟩,
    .send 0 (.bytes 4), .clear 0, .accept 5, .ready 6 false true false, .loop,
    .recv (.bytes "GET k\n".toList), .loop, .loop, .loop, .loop, .loop, .take 0,
    .dispatch 0 ⟨0, 0⟩, .send 0 (.bytes 3)]

theorem late_response_fails :
    ∃ s os, (server (fun _ => 0)).Run Server.FreshFd idleServer hangUpThenSend s os ∧
      ((∀ c sock bytes, Out.sent c sock bytes ∈ os → sock = c) ∧
        (∀ c sock chunk, Out.received c sock chunk ∈ os → sock = c) ∧
        ∀ c, (dispatched (notes c os)).Sublist (extracted (notes c os))) ∧
      Out.failed 0 ∈ os ∧ Out.sent 1 1 "$v\n".toList ∈ os :=
  ⟨_,_,Machine.run_of_exec (by decide +kernel),
    responses_reach_their_client _ _ _ (Machine.run_of_exec (by decide +kernel)),
    by decide +kernel⟩

def hangUpThenReuse : List Event :=
  [.accept 5, .ready 5 false true false, .loop, .recv (.bytes "SET k v\n".toList), .loop, .loop,
    .loop, .loop, .loop, .take 0, .ready 5 true false false, .accept 5, .dispatch 0 ⟨0, 0⟩,
    .send 0 (.bytes 4), .clear 0]

theorem response_sent_to_stranger :
    ∃ s os, (server (fun _ => 0)).Run Machine.anyStep idleServer hangUpThenReuse s os ∧
      Out.received 0 0 "SET k v\n".toList ∈ os ∧ Out.sent 0 1 "+OK\n".toList ∈ os :=
  ⟨_,_,Machine.run_of_exec (by decide +kernel),by decide +kernel⟩

end CacheForge
