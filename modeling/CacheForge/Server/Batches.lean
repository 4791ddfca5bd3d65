import CacheForge.Server.EventLoop

namespace CacheForge

namespace LoopOut

def report : LoopOut → Option (Nat × Option Nat)
  | reported fd conn => some (fd, conn)
  | _ => none

def handling : LoopOut → Option (Nat × Option Nat)
  | handled fd conn => some (fd, conn)
  | _ => none

def opening : LoopOut → Option Nat
  | opened conn => some conn
  | _ => none

def closure : LoopOut → Option (Nat × Option Nat)
  | closed fd sock => some (fd, sock)
  | _ => none

def serving : LoopOut → Option Out
  | served o => some o
  | _ => none

end LoopOut

namespace Server

structure Drops (s t : Server) (gone : Option Nat) : Prop where
  accepted : t.accepted = s.accepted
  fd : ∀ c, (t.conns c).fd = (s.conns c).fd
  closed : ∀ fd ∈ gone, t.connections fd = none ∧ t.interest fd = none
  kept : ∀ fd, gone ≠ some fd → t.connections fd = s.connections fd ∧
    (t.interest fd).isSome = (s.interest fd).isSome

variable {hash : Str → Nat} {s t : Server} {e : Event} {o : List Out} {gone : Option Nat}

def Agree (s : Server) : Prop := ∀ fd, (s.interest fd).isSome = (s.connections fd).isSome

theorem Drops.agree (h : Drops s t gone) (ha : s.Agree) : t.Agree := by
  intro fd
  rcases eq_or_ne gone (some fd) with hg | hg
  · obtain ⟨hc,hi⟩ := h.closed fd hg
    rw [hc, hi]
    rfl
  · obtain ⟨hc,hi⟩ := h.kept fd hg
    rw [hc, hi]
    exact ha fd

theorem drops_none (ha : t.accepted = s.accepted) (hf : ∀ c, (t.conns c).fd = (s.conns c).fd)
    (hc : t.connections = s.connections) (hi : t.interest = s.interest) : Drops s t none :=
  ⟨ha,hf,fun _ hg => (by cases hg),fun fd _ => ⟨by rw [hc],by rw [hi]⟩⟩

theorem drops_close (s : Server) (fd : Nat) : Drops s (s.closeConnection fd) (some fd) := by
  refine ⟨rfl,fun _ => rfl,fun x hx => ?_,fun x hx => ?_⟩
  · obtain rfl := Option.some.inj hx
    simp [closeConnection]
  · have hne : x ≠ fd := fun h => hx (by rw [h])
    simp [closeConnection, hne]

theorem drops_ready {fd : Nat} {hup inp out : Bool}
    (h : s.handleEvent fd hup inp out = some t) : Drops s t (if hup then some fd else none) := by
  unfold handleEvent at h
  split at h
  · cases h
  · cases hup with
    | true =>
      cases h
      exact drops_close s fd
    | false =>
      simp only [Bool.false_eq_true, if_false] at h
      split at h <;> cases h <;> exact drops_none rfl (fun _ => rfl) rfl rfl

theorem fd_update {conns : Nat → Connection} {d : Nat} {conn : Connection}
    (h : conn.fd = (conns d).fd) (c : Nat) :
    (Function.update conns d conn c).fd = (conns c).fd := by
  rcases eq_or_ne c d with rfl | hne
  · rw [Function.update_self, h]
  · rw [Function.update_of_ne hne]

theorem drops_turn {site : Site} {out : Bool} {stage : Stage} {turn : Turn}
    (hs : s.interest site.fd ≠ none)
    (ht : loopTurn out stage (s.conns site.conn) = some turn) :
    Drops s (s.turn site turn) (if turn.closes then some site.fd else none) := by
  refine ⟨turn_accepted ..,fun c => ?_,fun fd hfd => ?_,fun fd hfd => ?_⟩
  · rw [turn_conns]
    exact fd_update (loopTurn_spec ht).1 c
  · rw [turn_connections, turn_interest]
    cases hc : turn.closes with
    | true =>
      obtain rfl : site.fd = fd := by simpa [hc] using hfd
      simp
    | false => simp [hc] at hfd
  · rw [turn_connections, turn_interest]
    cases hc : turn.closes with
    | true =>
      have hne : fd ≠ site.fd := by
        rintro rfl
        simp [hc] at hfd
      simp [hne]
    | false =>
      rcases eq_or_ne fd site.fd with rfl | hne
      · obtain ⟨b,hb⟩ := Option.ne_none_iff_exists'.mp hs
        cases turn.registers <;> simp [hb]
      · simp [hne]

theorem closes_site {fd : Nat} (h : s.closes e = some fd) :
    e = .loop ∧ ∃ site p, s.loop = some (site, p) ∧ site.fd = fd := by
  unfold closes at h
  split at h
  · rename_i site out stage hl
    split at h
    · split at h
      · exact ⟨rfl,site,_,hl,Option.some.inj h⟩
      · cases h
    · cases h
  · cases h

def SameSite (s t : Server) : Prop :=
  ∀ site p, t.loop = some (site, p) → ∃ q, s.loop = some (site, q)

theorem drops_worker {w : Nat} (h : (server hash).step s e = some (t, o))
    (he : e.worker = some w) : Drops s t none ∧ t.loop = s.loop := by
  obtain ⟨hc,hi,-⟩ := step_slot h he
  suffices t.accepted = s.accepted ∧ (∀ c, (t.conns c).fd = (s.conns c).fd) ∧ t.loop = s.loop from
    ⟨drops_none this.1 this.2.1 hc hi,this.2.2⟩
  cases e with
  | take v =>
    obtain ⟨hx,-⟩ := quietly_eq h
    unfold take at hx
    split at hx <;> cases hx
    exact ⟨rfl,fun _ => rfl,rfl⟩
  | dispatch v r =>
    simp only [server, workerDispatch] at h
    split at h <;> cases h
    exact ⟨rfl,fun _ => rfl,rfl⟩
  | send v x =>
    simp only [server, workerSend] at h
    split at h
    · split at h <;> cases h
      exact ⟨rfl,fd_update (sendCall_fd ..),rfl⟩
    · cases h
  | queue v =>
    obtain ⟨hx,-⟩ := quietly_eq h
    unfold workerQueue at hx
    split at hx <;> cases hx
    exact ⟨rfl,fd_update rfl,rfl⟩
  | clear v =>
    obtain ⟨hx,-⟩ := quietly_eq h
    unfold workerClear at hx
    split at hx <;> cases hx
    exact ⟨rfl,fd_update rfl,rfl⟩
  | accept fd | ready fd hup inp out | loop | answer r | recv x | flush x
  | sweep now i order => cases he

theorem drops_step (hb : s.Sound) (ha : s.Agree) (he : e.inner = true)
    (h : (server hash).step s e = some (t, o)) : Drops s t (s.closes e) ∧ SameSite s t := by
  cases e with
  | accept fd | ready fd hup inp out => cases he
  | loop =>
    obtain ⟨hx,-⟩ := quietly_eq h
    unfold handleLoop at hx
    split at hx
    · rename_i site out stage hl
      obtain ⟨turn,ht,rfl⟩ := Option.map_eq_some_iff.mp hx
      have hi : s.interest site.fd ≠ none := by
        have hsome := ha site.fd
        rw [hb.site _ _ hl] at hsome
        exact Option.isSome_iff_ne_none.mp hsome
      refine ⟨?_,fun site' p hp => ?_⟩
      · simp only [closes, hl, ht]
        exact drops_turn hi ht
      · rw [turn_loop] at hp
        obtain ⟨q,-,hq⟩ := Option.map_eq_some_iff.mp hp
        cases hq
        exact ⟨_,hl⟩
    · cases hx
  | answer r => exact absurd ((sync_unreachable r hb).symm.trans h) (by simp)
  | recv x =>
    simp only [server, handleRecv] at h
    split at h
    · rename_i site out hl
      split at h <;> cases h
      refine ⟨drops_none rfl (fd_update (readAndParse_fd ..)) rfl rfl,fun site' p hp => ?_⟩
      cases hp
      exact ⟨_,hl⟩
    · cases h
  | flush x =>
    simp only [server, handleFlush] at h
    split at h
    · rename_i site out hl
      split at h <;> cases h
      refine ⟨drops_none rfl (fd_update (flushWriteBuffer_fd ..)) rfl rfl,fun site' p hp => ?_⟩
      cases hp
      exact ⟨_,hl⟩
    · cases h
  | sweep now i order =>
    cases h
    exact ⟨drops_none rfl (fun _ => rfl) rfl rfl,fun site p hl => ⟨p,hl⟩⟩
  | take w | dispatch w r | send w x | queue w | clear w =>
    obtain ⟨hd,hl⟩ := drops_worker h rfl
    exact ⟨hd,fun site p hp => ⟨p,hl ▸ hp⟩⟩

theorem mem_openConns (hs : s.Tables) {c : Nat} :
    c ∈ s.openConns ↔ s.connections (s.conns c).fd = some c := by
  simp only [openConns, List.mem_filter, List.mem_range, decide_eq_true_eq]
  exact ⟨And.right,fun h => ⟨(hs.owner _ _ h).1,h⟩⟩

theorem openConns_nodup (s : Server) : s.openConns.Nodup := List.nodup_range.filter _

theorem Drops.openConns_kept (h : Drops s t none) : t.openConns = s.openConns := by
  unfold openConns
  rw [h.accepted]
  refine List.filter_congr fun c _ => ?_
  rw [h.fd, (h.kept _ (by simp)).1]

theorem Drops.openConns_closed {fd c : Nat} (h : Drops s t (some fd)) (hs : s.Tables)
    (ht : t.Tables) (hc : s.connections fd = some c) :
    s.openConns.Perm (c :: t.openConns) := by
  have hfd := (hs.owner _ _ hc).2
  have hnot : c ∉ t.openConns := by
    rw [mem_openConns ht, h.fd, hfd, (h.closed fd rfl).1]
    simp
  refine (List.perm_ext_iff_of_nodup s.openConns_nodup
    (List.nodup_cons.mpr ⟨hnot,t.openConns_nodup⟩)).mpr fun d => ?_
  rw [List.mem_cons, mem_openConns hs, mem_openConns ht, h.fd]
  rcases eq_or_ne (s.conns d).fd fd with hd | hd
  · rw [hd, (h.closed fd rfl).1, hc]
    constructor
    · intro hcd
      exact .inl (Option.some.inj hcd).symm
    · rintro (rfl | hcd)
      · rfl
      · cases hcd
  · rw [(h.kept _ fun hg => hd (Option.some.inj hg).symm).1]
    refine ⟨.inr,?_⟩
    rintro (rfl | hcd)
    · exact absurd hfd hd
    · exact hcd

theorem Drops.sockets (h : Drops s t gone) (hs : s.Tables) (ht : t.Tables)
    (hopen : ∀ fd ∈ gone, s.connections fd ≠ none) :
    ((gone.map s.fdTable).toList ++ t.openConns.map some).Perm (s.openConns.map some) := by
  cases gone with
  | none =>
    rw [h.openConns_kept]
    exact .refl _
  | some fd =>
    obtain ⟨c,hc⟩ := Option.ne_none_iff_exists'.mp (hopen fd rfl)
    rw [Option.map_some, hs.kernel, hc]
    exact ((h.openConns_closed hs ht hc).map some).symm

theorem openConns_add (hs : s.Sound) {fd : Nat} (hfd : s.fdTable fd = none) :
    (s.addConnection fd).openConns = s.openConns ++ [s.accepted] := by
  have hold (c : Nat) (hc : c ∈ List.range s.accepted) :
      decide ((s.addConnection fd).connections ((s.addConnection fd).conns c).fd = some c) =
        decide (s.connections (s.conns c).fd = some c) := by
    have hne : c ≠ s.accepted := (List.mem_range.mp hc).ne
    rcases eq_or_ne (s.conns c).fd fd with hx | hx
    · rw [hs.kernel] at hfd
      simp [addConnection, hne, hx, hfd, Ne.symm hne]
    · simp [addConnection, hne, hx]
  rw [openConns, show (s.addConnection fd).accepted = s.accepted + 1 from rfl, List.range_succ,
    List.filter_append, List.filter_congr hold]
  simp [openConns, addConnection, Connection.create]

theorem close_step (hash : Str → Nat) (fd : Nat) (hl : s.loop = none) :
    (server hash).step s (.ready fd true false false) = some (s.closeConnection fd, []) := by
  simp [server, quietly, handleEvent, hl]

theorem closeAll_keeps (I : Server → Prop) (hI : ∀ s fd, I s → I (s.closeConnection fd))
    (order : List Nat) (h : I s) : I (s.closeAll order).1 := by
  induction order generalizing s with
  | nil => exact h
  | cons fd order ih => exact ih (hI s fd h)

theorem closeAll_run (hash : Str → Nat) (order : List Nat) (hl : s.loop = none) :
    ∃ es, (server hash).Run Machine.anyStep s es (s.closeAll order).1 [] := by
  induction order generalizing s with
  | nil => exact ⟨[],.nil⟩
  | cons fd order ih =>
    obtain ⟨es,hrun⟩ := ih (s := s.closeConnection fd) hl
    exact ⟨_,(Machine.Run.single trivial (close_step hash fd hl)).append hrun⟩

theorem closeAll_outs (order : List Nat) (s : Server) :
    ∀ x ∈ (s.closeAll order).2, ∃ fd sock, x = .closed fd sock := by
  induction order generalizing s with
  | nil => exact fun x hx => by cases hx
  | cons fd order ih =>
    intro x hx
    rcases List.mem_cons.mp hx with rfl | hx
    · exact ⟨_,_,rfl⟩
    · exact ih _ x hx

def socks (os : List LoopOut) : List (Option Nat) := (os.filterMap LoopOut.closure).map Prod.snd

theorem closeAll_closes (hash : Str → Nat) {order : List Nat} (hs : s.Sound) (hl : s.loop = none)
    (ho : order.Perm s.openFds) :
    (s.closeAll order).1.openConns = [] ∧
      (socks (s.closeAll order).2).Perm (s.openConns.map some) := by
  induction order generalizing s with
  | nil =>
    have hnil : s.openConns = [] := List.map_eq_nil_iff.mp ho.symm.eq_nil
    exact ⟨hnil,by simp [closeAll, socks, hnil]⟩
  | cons fd order ih =>
    obtain ⟨c,hc,rfl⟩ := List.mem_map.mp (ho.subset (List.mem_cons_self ..))
    have hconn := (mem_openConns hs.toTables).mp hc
    have ht := (step_projects hs (close_step hash (s.conns c).fd hl)).sound hs
    have hperm := (drops_close s (s.conns c).fd).openConns_closed hs.toTables ht.toTables hconn
    have hrest : order.Perm (s.closeConnection (s.conns c).fd).openFds :=
      (List.perm_cons _).mp (ho.trans (hperm.map _))
    obtain ⟨hnil,hsocks⟩ := ih ht hl hrest
    refine ⟨hnil,?_⟩
    have hsock : s.fdTable (s.conns c).fd = some c := by rw [hs.kernel, hconn]
    have hclosed : socks (s.closeAll ((s.conns c).fd :: order)).2 =
        some c :: socks ((s.closeConnection (s.conns c).fd).closeAll order).2 := by
      simp [closeAll, socks, LoopOut.closure, hsock]
    rw [hclosed]
    exact (hsocks.cons (some c)).trans (hperm.map some).symm

variable (hash) in
theorem ready_step {fd : Nat} {hup inp out : Bool} (h : s.handleEvent fd hup inp out = some t) :
    (server hash).step s (.ready fd hup inp out) = some (t, []) := by
  simp [server, quietly, h]

variable (hash) in
theorem accept_step {fd : Nat} (h : s.acceptConnection fd = some t) :
    (server hash).step s (.accept fd) = some (t, []) := by
  simp [server, quietly, h]

end Server

namespace EventLoop

variable {hash : Str → Nat} {l m : EventLoop} {e : LoopEvent} {o os : List LoopOut}

structure Fresh (l : EventLoop) : Prop where
  sound : l.server.Sound
  agree : l.server.Agree
  listener : l.server.connections l.serverFd = none
  idle : (∀ rest, l.control ≠ .handling rest) → l.server.loop = none
  nodup : (l.control.rest.map Ready.fd).Nodup
  site : ∀ site p, l.server.loop = some (site, p) → ∀ x ∈ l.control.rest, x.fd ≠ site.fd
  found : ∀ x ∈ l.control.rest, x.fd = l.serverFd ∨ l.server.connections x.fd ≠ none
  thrown : l.control ≠ .thrown

theorem fresh_create (serverFd numThreads : Nat) (d : Dispatcher) :
    (create serverFd numThreads d).Fresh := by
  refine ⟨Server.sound_start numThreads d,fun _ => rfl,rfl,fun _ => rfl,List.nodup_nil,?_,?_,?_⟩
  · intro site p h
    cases h
  · intro x hx
    cases hx
  · intro h
    cases h

theorem Fresh.drops (h : l.Fresh) {t : Server} {gone : Option Nat} {running : Bool}
    {control : Control} (ht : t.Sound) (hd : Server.Drops l.server t gone)
    (hrest : control.rest.Sublist l.control.rest)
    (hgone : ∀ fd ∈ gone, ∀ x ∈ control.rest, x.fd ≠ fd)
    (hidle : (∀ rest, control ≠ .handling rest) → t.loop = none)
    (hsite : ∀ site p, t.loop = some (site, p) → ∀ x ∈ control.rest, x.fd ≠ site.fd)
    (hc : control ≠ .thrown) : (⟨t, l.serverFd, running, control⟩ : EventLoop).Fresh := by
  refine ⟨ht,hd.agree h.agree,?_,hidle,h.nodup.sublist (hrest.map _),hsite,fun x hx => ?_,hc⟩
  · rcases eq_or_ne gone (some l.serverFd) with hg | hg
    · exact (hd.closed _ hg).1
    · rw [(hd.kept _ hg).1]
      exact h.listener
  · rw [(hd.kept x.fd fun hg => hgone x.fd hg x hx rfl).1]
    exact h.found x (hrest.subset hx)

theorem Fresh.moves (h : l.Fresh) {running : Bool} {control : Control}
    (hidle : (∀ rest, control ≠ .handling rest) → l.server.loop = none)
    (hrest : control.rest.Sublist l.control.rest) (hc : control ≠ .thrown) :
    (⟨l.server, l.serverFd, running, control⟩ : EventLoop).Fresh :=
  h.drops h.sound (Server.drops_none rfl (fun _ => rfl) rfl rfl) hrest (by simp) hidle
    (fun site p hs x hx => h.site site p hs x (hrest.subset hx)) hc

theorem ready_site {s t : Server} {fd : Nat} {hup inp out : Bool}
    (h : s.handleEvent fd hup inp out = some t) {site : Site} {p : Pending}
    (hl : t.loop = some (site, p)) : site.fd = fd := by
  unfold Server.handleEvent at h
  split at h
  · cases h
  · rename_i hnone
    split at h
    · cases h
      rw [show (s.closeConnection fd).loop = s.loop from rfl, hnone] at hl
      cases hl
    · split at h <;> cases h
      · rw [hnone] at hl
        cases hl
      · obtain ⟨q,-,hq⟩ := Option.map_eq_some_iff.mp hl
        cases hq
        rfl

theorem Fresh.interest (h : l.Fresh) {fd : Nat} :
    l.server.interest fd ≠ none ↔ l.server.connections fd ≠ none := by
  rw [← Option.isSome_iff_ne_none, ← Option.isSome_iff_ne_none, h.agree fd]

theorem Fresh.add_succeeds (h : l.Fresh) {fd : Nat} {s : Server}
    (hs : l.server.acceptConnection fd = some s) : l.server.interest fd = none := by
  unfold Server.acceptConnection at hs
  split at hs
  · rename_i hfd
    rw [h.sound.kernel] at hfd
    by_contra hi
    exact h.interest.mp hi hfd
  · cases hs

theorem Fresh.modify_succeeds (h : l.Fresh) (x : Event) : l.server.modifyFails x = false := by
  unfold Server.modifyFails
  split
  · rename_i site out want hl
    have hsite := h.sound.site _ _ hl
    have hi : l.server.interest site.fd ≠ none := h.interest.mpr (by simp [hsite])
    rw [h.sound.kernel, hsite]
    simpa using Option.isSome_iff_ne_none.mpr hi
  · rfl

theorem Fresh.first (h : l.Fresh) {x : Ready} {rest : List Ready}
    (hc : l.control = .handling (x :: rest)) : ∀ y ∈ rest, y.fd ≠ x.fd := by
  have hnodup := h.nodup
  rw [hc] at hnodup
  intro y hy hxy
  exact (List.nodup_cons.mp hnodup).1 (hxy ▸ List.mem_map_of_mem hy)

theorem Fresh.step (h : l.Fresh) (hs : Step hash l e m o) : m.Fresh := by
  cases hs with
  | stop => exact h.moves h.idle (.refl _) h.thrown
  | run hc => exact h.moves (fun _ => h.idle (by simp [hc])) (by simp [Control.rest]) (by simp)
  | check hc =>
    refine h.moves (fun _ => h.idle (by simp [hc])) ?_ ?_ <;> split <;> simp [Control.rest]
  | wait ready hc hr =>
    have hnone := h.idle (by simp [hc])
    refine ⟨h.sound,h.agree,h.listener,fun _ => hnone,hr.1,?_,fun x hx => ?_,by simp⟩
    · intro site p hl
      rw [hnone] at hl
      cases hl
    · exact (hr.2.2 x hx).imp_right fun hx => h.interest.mp hx.1
  | handled hc hl => exact h.moves (fun _ => hl) (by simp [Control.rest]) (by simp)
  | listener x rest hc hl hx =>
    exact h.moves (fun _ => hl) (by simp [hc, Control.rest]) (by simp)
  | client x rest s hc hl hx hs =>
    have hfirst := h.first hc
    have hstep := Server.ready_step hash hs
    refine h.drops ((Server.step_projects h.sound hstep).sound h.sound) (Server.drops_ready hs)
      (by simp [hc, Control.rest]) ?_ (fun hidle => absurd rfl (hidle rest)) ?_ (by simp)
    · intro fd hfd y hy
      obtain rfl : x.fd = fd := by
        split at hfd
        · exact Option.some.inj hfd
        · cases hfd
      exact hfirst y hy
    · intro site p hp y hy
      rw [ready_site hs hp]
      exact hfirst y hy
  | noMore rest hc =>
    exact h.moves (fun _ => h.idle (by simp [hc])) (by simp [hc, Control.rest]) (by simp)
  | accepted rest fd s hc hfd hs hi =>
    have hstep := Server.accept_step hash hs
    have hnone := h.idle (by simp [hc])
    have hsound := (Server.step_projects h.sound hstep).sound h.sound
    unfold Server.acceptConnection at hs
    split at hs <;> cases hs
    refine ⟨hsound,fun x => ?_,?_,fun _ => hnone,h.nodup,?_,fun x hx => ?_,h.thrown⟩
    · rcases eq_or_ne x fd with rfl | hne
      · simp [Server.addConnection]
      · simpa [Server.addConnection, hne] using h.agree x
    · simpa [Server.addConnection, Ne.symm hfd] using h.listener
    · intro site p hl
      exact absurd (hnone.symm.trans hl) (by simp)
    · rcases eq_or_ne x.fd fd with hxf | hne
      · exact .inr (by simp [Server.addConnection, hxf])
      · simpa [Server.addConnection, hne] using h.found x hx
  | addFailed rest fd s hc hs hi => exact absurd (h.add_succeeds hs) hi
  | modifyFailed x he hm => simp [h.modify_succeeds x] at hm
  | visit x t os he hm hs =>
    obtain ⟨hd,hf⟩ := Server.drops_step h.sound h.agree he hs
    refine h.drops ((Server.step_projects h.sound hs).sound h.sound) hd (.refl _) ?_ ?_ ?_ h.thrown
    · intro fd hfd
      obtain ⟨-,site,p,hl,rfl⟩ := Server.closes_site hfd
      exact h.site site p hl
    · intro hidle
      have hnone := h.idle hidle
      by_contra hsome
      obtain ⟨⟨site,p⟩,hp⟩ := Option.ne_none_iff_exists'.mp hsome
      obtain ⟨q,hq⟩ := hf site p hp
      exact absurd (hnone.symm.trans hq) (by simp)
    · intro site p hp
      obtain ⟨q,hq⟩ := hf site p hp
      exact h.site site q hq
  | destroy order hc ho =>
    have hnone : l.server.loop = none := h.idle (by rcases hc with hc | hc <;> simp [hc])
    obtain ⟨es,hrun⟩ := Server.closeAll_run hash order hnone
    have hsound : (l.server.closeAll order).1.Sound := hrun.invariant (fun s _ => s.Sound) h.sound
      fun s os x t o hs _ hstep => (Server.step_projects hs hstep).sound hs
    refine ⟨hsound,?_,?_,fun _ => ?_,List.nodup_nil,?_,?_,by simp⟩
    · exact Server.closeAll_keeps Server.Agree (fun s fd ha => (Server.drops_close s fd).agree ha)
        order h.agree
    · refine Server.closeAll_keeps (fun s => s.connections l.serverFd = none) (fun s fd hs => ?_)
        order h.listener
      rcases eq_or_ne l.serverFd fd with rfl | hne
      · exact ((Server.drops_close s _).closed _ rfl).1
      · rw [((Server.drops_close s fd).kept _ fun hg => hne (Option.some.inj hg).symm).1, hs]
    · exact Server.closeAll_keeps (fun s => s.loop = none) (fun _ _ hs => hs) order hnone
    · intro site p _ x hx
      cases hx
    · intro x hx
      cases hx

def pending (l : EventLoop) : List (Nat × Option Nat) :=
  l.control.rest.map fun x => (x.fd, l.server.connections x.fd)

structure Recorded (l : EventLoop) (os : List LoopOut) : Prop where
  reports : os.filterMap LoopOut.report = os.filterMap LoopOut.handling ++ l.pending
  found : ∀ x ∈ os.filterMap LoopOut.handling, x.1 = l.serverFd ∨ x.2 ≠ none
  opened : os.filterMap LoopOut.opening = List.range l.server.accepted
  closed : (Server.socks os ++ l.server.openConns.map some).Perm
    ((List.range l.server.accepted).map some)
  destroyed : l.control = .destroyed → l.server.openConns = []

theorem recorded_create (serverFd numThreads : Nat) (d : Dispatcher) :
    (create serverFd numThreads d).Recorded [] :=
  ⟨rfl,by simp,rfl,.refl _,by simp [create]⟩

theorem socks_append (os ps : List LoopOut) :
    Server.socks (os ++ ps) = Server.socks os ++ Server.socks ps := by
  simp [Server.socks]

theorem Recorded.extend (h : l.Recorded os) (now : List (Nat × Option Nat))
    (hr : l.pending ++ o.filterMap LoopOut.report = now ++ m.pending)
    (hn : o.filterMap LoopOut.handling = now) (hfd : m.serverFd = l.serverFd)
    (hf : ∀ x ∈ now, x.1 = l.serverFd ∨ x.2 ≠ none)
    (ho : List.range m.server.accepted =
      List.range l.server.accepted ++ o.filterMap LoopOut.opening)
    (hc : (Server.socks o ++ m.server.openConns.map some).Perm
      (l.server.openConns.map some ++ (o.filterMap LoopOut.opening).map some))
    (hd : m.control = .destroyed → m.server.openConns = []) : m.Recorded (os ++ o) := by
  refine ⟨?_,?_,?_,?_,hd⟩
  · rw [List.filterMap_append, List.filterMap_append, hn, h.reports, List.append_assoc, hr,
      List.append_assoc]
  · intro x hx
    rw [List.filterMap_append, hn] at hx
    rw [hfd]
    rcases List.mem_append.mp hx with hx | hx
    · exact h.found x hx
    · exact hf x hx
  · rw [List.filterMap_append, h.opened, ho]
  · rw [socks_append, List.append_assoc, ho, List.map_append]
    refine (hc.append_left _).trans ?_
    rw [← List.append_assoc]
    exact h.closed.append_right _

theorem Recorded.silent (h : l.Recorded os) (hs : m.server = l.server)
    (hfd : m.serverFd = l.serverFd)
    (hp : m.control.rest = l.control.rest)
    (hd : m.control = .destroyed → l.control = .destroyed) : m.Recorded (os ++ []) := by
  refine h.extend [] ?_ rfl hfd (by simp) (by simp [hs]) (by simp [Server.socks, hs]) ?_
  · simp [pending, hs, hp]
  · rw [hs]
    exact fun hm => h.destroyed (hd hm)

theorem pending_drops {t : Server} {gone : Option Nat} (rest : List Ready)
    (hd : Server.Drops l.server t gone) (hgone : ∀ fd ∈ gone, ∀ x ∈ rest, x.fd ≠ fd) :
    rest.map (fun x => (x.fd, t.connections x.fd)) =
      rest.map fun x => (x.fd, l.server.connections x.fd) := by
  refine List.map_congr_left fun x hx => ?_
  rw [(hd.kept x.fd fun hg => hgone x.fd hg x hx rfl).1]

theorem visit_outs (s : Server) (x : Event) (outs : List Out) :
    let o := s.closing x ++ outs.map LoopOut.served
    o.filterMap LoopOut.report = [] ∧ o.filterMap LoopOut.handling = [] ∧
      o.filterMap LoopOut.opening = [] ∧ Server.socks o = ((s.closes x).map s.fdTable).toList ∧
      o.filterMap LoopOut.serving = outs := by
  unfold Server.closing Server.socks
  cases s.closes x <;> simp [List.filterMap_map, List.filterMap_cons, Function.comp_def,
    LoopOut.report, LoopOut.handling, LoopOut.opening, LoopOut.closure, LoopOut.serving]

theorem Recorded.step (hf : l.Fresh) (h : l.Recorded os) (hs : Step hash l e m o) :
    m.Recorded (os ++ o) := by
  have hm := hf.step hs
  cases hs with
  | stop => exact h.silent rfl rfl rfl id
  | run hc => exact h.silent rfl rfl (by simp [hc, Control.rest]) (by simp)
  | check hc =>
    refine h.silent rfl rfl ?_ ?_ <;> dsimp only <;> split <;> simp [hc, Control.rest]
  | wait ready hc hr =>
    have hnone : l.pending = [] := by simp [pending, hc, Control.rest]
    have hreports : (ready.map fun x => LoopOut.reported x.fd (l.server.connections x.fd)).filterMap
        LoopOut.report = ready.map fun x => (x.fd, l.server.connections x.fd) := by
      rw [List.filterMap_map]
      exact List.filterMap_eq_map (f := fun x : Ready => (x.fd, l.server.connections x.fd)) ▸ rfl
    refine h.extend [] ?_ ?_ rfl (by simp) ?_ ?_ (by simp)
    · rw [hnone, hreports]
      rfl
    · simp [List.filterMap_map, Function.comp_def, LoopOut.handling]
    · simp [List.filterMap_map, Function.comp_def, LoopOut.opening]
    · simp [Server.socks, List.filterMap_map, Function.comp_def, LoopOut.closure, LoopOut.opening]
  | handled hc hl => exact h.silent rfl rfl (by simp [hc, Control.rest]) (by simp)
  | listener x rest hc hl hx =>
    refine h.extend [(x.fd, l.server.connections x.fd)] ?_ rfl rfl ?_ ?_ ?_ (by simp)
    · simp [pending, hc, Control.rest, LoopOut.report]
    · simp [hx]
    · simp [LoopOut.opening]
    · simp [Server.socks, List.filterMap_cons, LoopOut.closure, LoopOut.opening]
  | client x rest s hc hl hx hs =>
    have hd := Server.drops_ready hs
    have hfound : l.server.connections x.fd ≠ none :=
      (hf.found x (by simp [hc, Control.rest])).resolve_left hx
    have hsock := hd.sockets hf.sound.toTables hm.sound.toTables
      (by cases x.hup <;> simp [hfound])
    have hrest := pending_drops rest hd (by
      cases x.hup
      · simp
      · simpa using hf.first hc)
    refine h.extend [(x.fd, l.server.connections x.fd)] ?_ ?_ rfl (by simp [hfound]) ?_ ?_ (by simp)
    · simp only [pending, hc, Control.rest, hrest]
      cases x.hup <;> simp [LoopOut.report]
    · cases x.hup <;> simp [LoopOut.handling]
    · rw [hd.accepted]
      cases x.hup <;> simp [LoopOut.opening]
    · cases hup : x.hup <;> simpa [Server.socks, List.filterMap_cons, LoopOut.closure,
        LoopOut.opening, hup] using hsock
  | noMore rest hc => exact h.silent rfl rfl (by simp [hc, Control.rest]) (by simp)
  | accepted rest fd s hc hfd hs hi =>
    unfold Server.acceptConnection at hs
    split at hs <;> cases hs
    rename_i hnone htable
    have hother : ∀ x ∈ rest, x.fd ≠ fd := by
      rintro x hx rfl
      rw [hf.sound.kernel] at htable
      exact (hf.found x (by simpa [hc, Control.rest] using hx)).elim hfd (absurd htable)
    have hrest : rest.map (fun x => (x.fd, (l.server.addConnection fd).connections x.fd)) =
        rest.map fun x => (x.fd, l.server.connections x.fd) :=
      List.map_congr_left fun x hx => by simp [Server.addConnection, hother x hx]
    refine h.extend [] ?_ rfl rfl (by simp) List.range_succ ?_ (by simp [hc])
    · simp only [pending, hc, Control.rest, hrest]
      simp [LoopOut.report]
    · rw [Server.openConns_add hf.sound htable]
      simp [Server.socks, List.filterMap_cons, LoopOut.closure, LoopOut.opening]
  | addFailed rest fd s hc hs hi => exact absurd (hf.add_succeeds hs) hi
  | modifyFailed x he hfail => exact absurd hfail (by simp [hf.modify_succeeds x])
  | visit x t outs he hok hs =>
    obtain ⟨hd,-⟩ := Server.drops_step hf.sound hf.agree he hs
    have hsite : ∀ fd ∈ l.server.closes x, l.server.connections fd ≠ none ∧
        ∀ y ∈ l.control.rest, y.fd ≠ fd := by
      intro fd hfd
      obtain ⟨-,site,p,hl,rfl⟩ := Server.closes_site hfd
      exact ⟨by simp [hf.sound.site _ _ hl],hf.site site p hl⟩
    have hsock := hd.sockets hf.sound.toTables hm.sound.toTables fun fd hfd => (hsite fd hfd).1
    have hrest := pending_drops l.control.rest hd fun fd hfd => (hsite fd hfd).2
    obtain ⟨hreport,hhandling,hopening,hsocks,-⟩ := visit_outs l.server x outs
    refine h.extend [] ?_ hhandling rfl (by simp) ?_ ?_ ?_
    · rw [hreport]
      simp only [pending, hrest]
      simp
    · rw [hopening, hd.accepted, List.append_nil]
    · rw [hopening, hsocks]
      simpa using hsock
    · intro hdest
      have hopen := h.destroyed hdest
      rw [hopen, List.map_nil] at hsock
      exact List.map_eq_nil_iff.mp (List.append_eq_nil_iff.mp hsock.eq_nil).2
  | destroy order hc ho =>
    have hnone : l.server.loop = none := hf.idle (by rcases hc with hc | hc <;> simp [hc])
    obtain ⟨hclosed,hsocks⟩ := Server.closeAll_closes hash hf.sound hnone ho
    have houts {α : Type} (f : LoopOut → Option α) (hfd : ∀ fd sock, f (.closed fd sock) = none) :
        (l.server.closeAll order).2.filterMap f = [] := by
      refine List.filterMap_eq_nil_iff.mpr fun x hx => ?_
      obtain ⟨fd,sock,rfl⟩ := Server.closeAll_outs order l.server x hx
      exact hfd fd sock
    have hrest : l.control.rest = [] := by rcases hc with hc | hc <;> rw [hc] <;> rfl
    have haccepted : (l.server.closeAll order).1.accepted = l.server.accepted :=
      Server.closeAll_keeps (fun s => s.accepted = l.server.accepted) (fun _ _ hs => hs) order rfl
    refine h.extend [] ?_ (houts _ fun _ _ => rfl) rfl (by simp) ?_ ?_ fun _ => hclosed
    · rw [houts _ fun _ _ => rfl, pending, hrest]
      rfl
    · rw [houts _ fun _ _ => rfl, haccepted, List.append_nil]
    · rw [houts _ fun _ _ => rfl, hclosed]
      simpa using hsocks

theorem Fresh.serves (h : l.Fresh) (hs : Step hash l e m o) :
    ∃ es, (CacheForge.server hash).Run Machine.anyStep l.server es m.server
      (o.filterMap LoopOut.serving) := by
  cases hs with
  | stop | run | check | handled | noMore => exact ⟨[],.nil⟩
  | wait ready hc hr =>
    refine ⟨[],?_⟩
    simp only [List.filterMap_map, Function.comp_def, LoopOut.serving, List.filterMap_none]
    exact .nil
  | listener => exact ⟨[],.nil⟩
  | client x rest s hc hl hx hs =>
    have hstep := Server.ready_step hash hs
    have hnone : (LoopOut.handled x.fd (l.server.connections x.fd) ::
        if x.hup then [LoopOut.closed x.fd (l.server.fdTable x.fd)] else []).filterMap
          LoopOut.serving = [] := by
      cases x.hup <;> simp [LoopOut.serving]
    rw [hnone]
    exact ⟨_,.single trivial hstep⟩
  | accepted rest fd s hc hfd hs hi =>
    have hstep := Server.accept_step hash hs
    exact ⟨_,.single trivial hstep⟩
  | addFailed rest fd s hc hs hi => exact absurd (h.add_succeeds hs) hi
  | modifyFailed x he hfail => exact absurd hfail (by simp [h.modify_succeeds x])
  | visit x t outs he hok hs =>
    obtain ⟨-,-,-,-,hserving⟩ := visit_outs l.server x outs
    rw [hserving]
    exact ⟨_,.single trivial hs⟩
  | destroy order hc ho =>
    have hnone : l.server.loop = none := h.idle (by rcases hc with hc | hc <;> simp [hc])
    obtain ⟨es,hrun⟩ := Server.closeAll_run hash order hnone
    have houts : (l.server.closeAll order).2.filterMap LoopOut.serving = [] := by
      refine List.filterMap_eq_nil_iff.mpr fun x hx => ?_
      obtain ⟨fd,sock,rfl⟩ := Server.closeAll_outs order l.server x hx
      rfl
    rw [houts]
    exact ⟨es,hrun⟩

variable {serverFd numThreads : Nat} {d : Dispatcher} {es : List LoopEvent}

theorem run_fresh
    (h : (eventLoop hash).Run Machine.anyStep (create serverFd numThreads d) es l os) :
    l.Fresh ∧ l.serverFd = serverFd ∧ l.Recorded os ∧
      ∃ ds, (CacheForge.server hash).Run Machine.anyStep (.start numThreads d) ds l.server
        (os.filterMap LoopOut.serving) := by
  refine h.invariant (fun l os => l.Fresh ∧ l.serverFd = serverFd ∧ l.Recorded os ∧
    ∃ ds, (CacheForge.server hash).Run Machine.anyStep (.start numThreads d) ds l.server
      (os.filterMap LoopOut.serving)) ?_ ?_
  · exact ⟨fresh_create ..,rfl,recorded_create ..,[],.nil⟩
  · rintro l os e m o ⟨hf,hfd,hb,ds,hrun⟩ - hstep
    have hs := step_cases hstep
    obtain ⟨es',hserves⟩ := hf.serves hs
    refine ⟨hf.step hs,?_,hb.step hf hs,ds ++ es',?_⟩
    · rw [← hfd]
      cases hs <;> rfl
    · rw [List.filterMap_append]
      exact hrun.append hserves

end EventLoop

theorem handled_events_fresh (hash : Str → Nat) (serverFd numThreads : Nat) (d : Dispatcher)
    {es : List LoopEvent} {l : EventLoop} {os : List LoopOut}
    (h : (eventLoop hash).Run Machine.anyStep (.create serverFd numThreads d) es l os) :
    l.control ≠ .thrown ∧
      os.filterMap LoopOut.report = os.filterMap LoopOut.handling ++ l.pending ∧
      (∀ x ∈ os.filterMap LoopOut.handling, x.1 = serverFd ∨ x.2 ≠ none) ∧
      ∃ ds, (server hash).Run Machine.anyStep (.start numThreads d) ds l.server
        (os.filterMap LoopOut.serving) := by
  obtain ⟨hf,hfd,hb,hserver⟩ := EventLoop.run_fresh h
  exact ⟨hf.thrown,hb.reports,hfd ▸ hb.found,hserver⟩

def reusedDescriptor : List LoopEvent :=
  [.run, .check, .wait [⟨3, false, true, false⟩], .next, .accept (some 5), .accept none, .next,
    .check, .wait [⟨5, true, true, false⟩, ⟨3, false, true, false⟩], .next, .next,
    .accept (some 5), .accept (some 6), .accept (some 7), .accept none, .next, .check,
    .wait [⟨6, false, true, false⟩, ⟨5, true, false, false⟩], .next]

theorem reused_descriptor_fresh :
    ∃ l os, (eventLoop (fun _ => 0)).Run Machine.anyStep (.create 3 1 (.create (.create 48) none 0))
        reusedDescriptor l os ∧
      (l.control ≠ .thrown ∧
        os.filterMap LoopOut.report = os.filterMap LoopOut.handling ++ l.pending ∧
        (∀ x ∈ os.filterMap LoopOut.handling, x.1 = 3 ∨ x.2 ≠ none) ∧
        ∃ ds, (server (fun _ => 0)).Run Machine.anyStep (.start 1 (.create (.create 48) none 0)) ds
          l.server (os.filterMap LoopOut.serving)) ∧
      os.filterMap LoopOut.handling = [(3, none), (5, some 0), (3, none), (6, some 2)] ∧
      l.pending = [(5, some 1)] :=
  ⟨_,_,Machine.run_of_exec (by decide +kernel),
    handled_events_fresh _ 3 1 _ (Machine.run_of_exec (by decide +kernel)),by decide +kernel,
    by decide +kernel⟩

theorem accepted_closed_once (hash : Str → Nat) (serverFd numThreads : Nat) (d : Dispatcher)
    {es : List LoopEvent} {l : EventLoop} {os : List LoopOut}
    (h : (eventLoop hash).Run Machine.anyStep (.create serverFd numThreads d) es l os) :
    os.filterMap LoopOut.opening = List.range l.server.accepted ∧
      (Server.socks os ++ l.server.openConns.map some).Perm
        ((os.filterMap LoopOut.opening).map some) ∧
      (l.control = .destroyed →
        (Server.socks os).Perm ((os.filterMap LoopOut.opening).map some)) := by
  obtain ⟨-,-,hb,-⟩ := EventLoop.run_fresh h
  have hclosed := hb.closed
  rw [← hb.opened] at hclosed
  refine ⟨hb.opened,hclosed,fun hd => ?_⟩
  rw [hb.destroyed hd] at hclosed
  simpa using hclosed

def stoppedServer : List LoopEvent :=
  reusedDescriptor ++ [.stop, .visit .loop, .visit (.recv .eof), .visit .loop, .next, .next, .check,
    .destroy [7]]

theorem stopped_server_closed :
    ∃ l os, (eventLoop (fun _ => 0)).Run Machine.anyStep (.create 3 1 (.create (.create 48) none 0))
        stoppedServer l os ∧
      (os.filterMap LoopOut.opening = List.range l.server.accepted ∧
        (Server.socks os ++ l.server.openConns.map some).Perm
          ((os.filterMap LoopOut.opening).map some) ∧
        (l.control = .destroyed →
          (Server.socks os).Perm ((os.filterMap LoopOut.opening).map some))) ∧
      l.control = .destroyed ∧
      os.filterMap LoopOut.closure = [(5, some 0), (6, some 2), (5, some 1), (7, some 3)] :=
  ⟨_,_,Machine.run_of_exec (by decide +kernel),
    accepted_closed_once _ 3 1 _ (Machine.run_of_exec (by decide +kernel)),by decide +kernel,
    by decide +kernel⟩

end CacheForge
