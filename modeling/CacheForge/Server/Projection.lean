import CacheForge.Server.Link
import CacheForge.Server.Server

namespace CacheForge

def Task.phase (c : Nat) (task : Task) : Option Phase :=
  if task.conn = c then some (.queued task.cmd) else none

def Job.phase (c : Nat) : Option Job → Option Phase
  | some job => if job.conn = c then some (.working job.progress) else none
  | none => none

def Out.note (c : Nat) : Out → Option Note
  | .received d _ chunk => if d = c then some (.received chunk) else none
  | .extracted d line => if d = c then some (.extracted line) else none
  | .dispatched d cmd response => if d = c then some (.dispatched cmd response) else none
  | .sent d _ bytes => if d = c then some (.sent bytes) else none
  | .failed d => if d = c then some .failed else none

def notes (c : Nat) (os : List Out) : List Note := os.filterMap (Out.note c)

theorem notes_append (c : Nat) (os ps : List Out) :
    notes c (os ++ ps) = notes c os ++ notes c ps :=
  List.filterMap_append ..

theorem notes_lines (c d : Nat) (lines : List Str) :
    notes c (lines.map (.extracted d)) = if d = c then lines.map .extracted else [] := by
  induction lines with
  | nil => simp [notes]
  | cons line lines ih =>
    rw [List.map_cons, ← List.singleton_append, notes_append, ih]
    split <;> simp_all [notes, Out.note]

theorem notes_recv (c d : Nat) (sock : Option Nat) (o : Received) (lines : List Str) :
    notes c ((o.through sock).outs d sock ++ lines.map (.extracted d)) =
      if d = c then (o.through sock).notes ++ lines.map .extracted else [] := by
  rw [notes_append, notes_lines]
  rcases eq_or_ne d c with rfl | hc
  · cases sock with
    | none => simp [Received.through, Received.outs, Received.notes, notes]
    | some k => cases o <;> simp [Received.through, Received.outs, Received.notes, notes, Out.note]
  · cases sock with
    | none => simp [Received.outs, notes, hc]
    | some k => cases o <;> simp [Received.through, Received.outs, notes, Out.note, hc]

theorem notes_sent (c d : Nat) (sock : Option Nat) (offered : Str) (o : Sent) :
    notes c ((o.through sock).outs d sock offered) =
      if d = c then (o.through sock).notes offered else [] := by
  unfold Sent.outs Sent.notes
  cases offered with
  | nil => simp [notes]
  | cons x offered =>
    rcases eq_or_ne d c with rfl | hc
    · cases sock with
      | none => simp [Sent.through, notes, Out.note]
      | some k => cases o <;> simp [Sent.through, notes, Out.note]
    · cases sock with
      | none => simp [Sent.through, notes, Out.note, hc]
      | some k => cases o <;> simp [Sent.through, notes, Out.note, hc]

def Out.route : Out → Option (Nat × Nat)
  | .received conn sock _ => some (conn, sock)
  | .sent conn sock _ => some (conn, sock)
  | _ => none

theorem received_route {d c k : Nat} {sock : Option Nat} {x : Received} {o : Out}
    (h : o ∈ x.outs d sock) (hr : o.route = some (c, k)) : c = d ∧ sock = some k := by
  cases sock with
  | none => cases h
  | some j =>
    cases x with
    | bytes chunk =>
      obtain rfl := List.mem_singleton.mp h
      cases hr
      exact ⟨rfl,rfl⟩
    | eof | again | error => cases h

theorem sent_route {d c k : Nat} {sock : Option Nat} {offered : Str} {x : Sent} {o : Out}
    (h : o ∈ x.outs d sock offered) (hr : o.route = some (c, k)) : c = d ∧ sock = some k := by
  unfold Sent.outs at h
  split at h
  · cases h
  · split at h
    · obtain rfl := List.mem_singleton.mp h
      cases hr
      exact ⟨rfl,rfl⟩
    · obtain rfl := List.mem_singleton.mp h
      cases hr
    · cases h

namespace Server

def phases (c : Nat) (s : Server) : List Phase :=
  s.tasks.filterMap (Task.phase c) ++ s.workers.filterMap (Job.phase c)

def stage (c : Nat) (s : Server) : Option Pending :=
  match s.loop with
  | some (site, p) => if site.conn = c then some p else none
  | none => none

def registered (c : Nat) (s : Server) : Option Bool :=
  if s.connections (s.conns c).fd = some c then s.interest (s.conns c).fd else none

def link (c : Nat) (s : Server) : Link := ⟨s.conns c, s.registered c, s.stage c, (s.phases c).head?⟩

structure Tables (s : Server) : Prop where
  kernel : s.fdTable = s.connections
  owner : ∀ fd c, s.connections fd = some c → c < s.accepted ∧ (s.conns c).fd = fd
  site : ∀ site p, s.loop = some (site, p) → s.connections site.fd = some site.conn

structure Sound (s : Server) : Prop extends Tables s where
  single : ∀ c, (s.phases c).length ≤ 1
  blank : ∀ c, s.accepted ≤ c → s.link c = .blank
  sound : ∀ c, (s.link c).Sound

def reader (s : Server) : Option Nat := s.loop.map (fun p => p.1.conn)

def sender (w : Nat) (s : Server) : Option Nat := s.workers[w]?.join.map Job.conn

def Traces (s : Server) (e : Event) (c : Nat) : Act → Prop
  | .silent => True
  | .recv (.bytes chunk) => e = .recv (.bytes chunk) ∧ s.reader = some c
  | .recv _ => True
  | .send (.bytes count) => ∃ w, e = .send w (.bytes count) ∧ s.sender w = some c
  | .send _ => True

def Same (s t : Server) (o : List Out) (c : Nat) : Prop :=
  t.link c = s.link c ∧ t.phases c = s.phases c ∧ notes c o = []

structure Moves (s t : Server) (e : Event) (o : List Out) (d : Nat) : Prop where
  known : d < t.accepted
  other : ∀ c, c ≠ d → Same s t o c
  single : (t.phases d).length ≤ 1
  self : ∃ a, LinkStep (s.link d) a (t.link d) (notes d o) ∧ s.Traces e d a

structure Keeps (s t : Server) : Prop where
  fd : ∀ c, (t.conns c).fd = (s.conns c).fd
  table : t.fdTable = s.fdTable ∨ ∃ fd, t.fdTable = Function.update s.fdTable fd none

def Via (s : Server) (o : List Out) : Prop :=
  ∀ x ∈ o, ∀ c k, x.route = some (c, k) → s.socket c = some k

structure Projects (s t : Server) (e : Event) (o : List Out) : Prop where
  tables : t.Tables
  accepted : s.accepted ≤ t.accepted
  keeps : (∃ fd, e = .accept fd ∧ t = s.addConnection fd) ∨ Keeps s t
  via : s.Via o
  moves : (∀ c, Same s t o c) ∨ ∃ d, Moves s t e o d

theorem via_nil (s : Server) : s.Via [] := fun _ hx => nomatch hx

theorem via_recv (s : Server) (d : Nat) (x : Received) (lines : List Str) :
    s.Via (x.outs d (s.socket d) ++ lines.map (.extracted d)) := by
  intro o ho c k hr
  rcases List.mem_append.mp ho with hm | hm
  · obtain ⟨rfl,hk⟩ := received_route hm hr
    exact hk
  · obtain ⟨line,-,rfl⟩ := List.mem_map.mp hm
    cases hr

theorem via_sent (s : Server) (d : Nat) (offered : Str) (x : Sent) :
    s.Via (x.outs d (s.socket d) offered) := by
  intro o ho c k hr
  obtain ⟨rfl,hk⟩ := sent_route ho hr
  exact hk

theorem via_dispatched (s : Server) (d : Nat) (cmd : Command) (response : Str) :
    s.Via [.dispatched d cmd response] := by
  intro o ho c k hr
  obtain rfl := List.mem_singleton.mp ho
  cases hr

theorem sound_start (numThreads : Nat) (d : Dispatcher) : (start numThreads d).Sound := by
  have hp (c : Nat) : (start numThreads d).phases c = [] := by
    simp [phases, start, Job.phase]
  have hl (c : Nat) : (start numThreads d).link c = .blank := by
    simp only [link, hp]
    rfl
  refine ⟨⟨rfl,?_,?_⟩,?_,fun c _ => hl c,?_⟩
  · intro fd c h
    cases h
  · intro site p h
    cases h
  · intro c
    simp [hp]
  · intro c
    rw [hl]
    exact Link.sound_blank

theorem Sound.phases {s : Server} (hs : s.Sound) (c : Nat) :
    s.phases c = (s.link c).phase.toList := by
  have hl := hs.single c
  unfold link
  cases hp : s.phases c with
  | nil => rfl
  | cons p ps =>
    obtain rfl : ps = [] := by simpa [hp] using hl
    rfl

theorem Projects.cases {s t : Server} {e : Event} {o : List Out} (h : Projects s t e o) (c : Nat) :
    Same s t o c ∨ (c < t.accepted ∧ (t.phases c).length ≤ 1 ∧
      ∃ a, LinkStep (s.link c) a (t.link c) (notes c o) ∧ s.Traces e c a) := by
  rcases h.moves with hall | ⟨d,hd⟩
  · exact .inl (hall c)
  · rcases eq_or_ne c d with rfl | hc
    · exact .inr ⟨hd.known,hd.single,hd.self⟩
    · exact .inl (hd.other c hc)

theorem Projects.sound {s t : Server} {e : Event} {o : List Out} (hs : s.Sound)
    (h : Projects s t e o) : t.Sound := by
  refine ⟨h.tables,?_,?_,?_⟩
  · intro c
    rcases h.cases c with hc | hc
    · rw [hc.2.1]
      exact hs.single c
    · exact hc.2.1
  · intro c hle
    rcases h.cases c with hc | hc
    · rw [hc.1]
      exact hs.blank c (le_trans h.accepted hle)
    · exact absurd hc.1 (not_lt.mpr hle)
  · intro c
    rcases h.cases c with hc | ⟨-,-,a,ha,-⟩
    · rw [hc.1]
      exact hs.sound c
    · exact Link.sound_step (hs.sound c) ha

theorem phases_setWorker {s : Server} {w : Nat} {old : Option Job} (h : s.workers[w]? = some old)
    (job : Option Job) (c : Nat) :
    ∃ a b, s.phases c = a ++ (Job.phase c old).toList ++ b ∧
      (s.setWorker w job).phases c = a ++ (Job.phase c job).toList ++ b := by
  obtain ⟨a,b,ha,hb⟩ := Machine.filterMap_set (Job.phase c) h job
  refine ⟨s.tasks.filterMap (Task.phase c) ++ a,b,?_,?_⟩
  · simp [phases, ha]
  · simp [phases, setWorker, hb]

theorem jobPhase_self (d : Nat) (next : Option Progress) :
    Job.phase d (next.map (Job.mk d)) = next.map .working := by
  cases next <;> simp [Job.phase]

theorem jobPhase_other {c d : Nat} (hc : c ≠ d) (next : Option Progress) :
    Job.phase c (next.map (Job.mk d)) = none := by
  cases next <;> simp [Job.phase, Ne.symm hc]

theorem phases_other {s : Server} {w c d : Nat} {p : Progress}
    (h : s.workers[w]? = some (some ⟨d, p⟩)) (hc : c ≠ d) (next : Option Progress) :
    (s.setWorker w (next.map (Job.mk d))).phases c = s.phases c := by
  obtain ⟨a,b,ha,hb⟩ := phases_setWorker h (next.map (Job.mk d)) c
  rw [ha, hb, jobPhase_other hc]
  simp [Job.phase, Ne.symm hc]

theorem nil_of_length {α : Type} {a b : List α} (h : a.length + b.length + 1 ≤ 1) :
    a = [] ∧ b = [] :=
  ⟨List.eq_nil_of_length_eq_zero (by omega),List.eq_nil_of_length_eq_zero (by omega)⟩

theorem phases_self {s : Server} {w d : Nat} {p : Progress} (hs : (s.phases d).length ≤ 1)
    (h : s.workers[w]? = some (some ⟨d, p⟩)) (next : Option Progress) :
    s.phases d = [.working p] ∧
      (s.setWorker w (next.map (Job.mk d))).phases d = (next.map Phase.working).toList := by
  obtain ⟨a,b,ha,hb⟩ := phases_setWorker h (next.map (Job.mk d)) d
  rw [jobPhase_self] at hb
  simp only [Job.phase, if_true, Option.toList_some] at ha
  rw [ha] at hs
  simp only [List.length_append, List.length_singleton] at hs
  obtain ⟨rfl,rfl⟩ := nil_of_length (a := a) (b := b) (by omega)
  exact ⟨ha,by simpa using hb⟩

theorem setConn_self (s : Server) (d : Nat) : s.setConn d (s.conns d) = s := by
  simp [setConn]

theorem setConn_fd (s : Server) (d : Nat) {x : Connection} (hx : x.fd = (s.conns d).fd) (c : Nat) :
    ((s.setConn d x).conns c).fd = (s.conns c).fd := by
  rcases eq_or_ne c d with rfl | hc
  · simp [setConn, hx]
  · simp [setConn, hc]

theorem registered_setConn (s : Server) (d : Nat) {x : Connection} (hx : x.fd = (s.conns d).fd)
    (c : Nat) : (s.setConn d x).registered c = s.registered c := by
  simp only [registered, setConn_fd s d hx]
  rfl

theorem tables_setConn {s : Server} (hs : s.Tables) (d : Nat) {x : Connection}
    (hx : x.fd = (s.conns d).fd) : (s.setConn d x).Tables := by
  refine ⟨hs.kernel,?_,hs.site⟩
  intro fd c h
  rw [setConn_fd s d hx]
  exact hs.owner fd c h

theorem worker_known {s : Server} (hs : s.Sound) {w d : Nat} {p : Progress}
    (h : s.workers[w]? = some (some ⟨d, p⟩)) : d < s.accepted := by
  by_contra hd
  have hb := hs.blank d (not_lt.mp hd)
  have hp := (phases_self (hs.single d) h none).1
  simp [link, Link.blank, hp] at hb

theorem worker_projects {s : Server} (hs : s.Sound) {w d : Nat} {p : Progress} {e : Event}
    (h : s.workers[w]? = some (some ⟨d, p⟩)) {x : Connection} (hx : x.fd = (s.conns d).fd)
    (next : Option Progress) {o : List Out} (hv : s.Via o) (ho : ∀ c, c ≠ d → notes c o = [])
    {a : Act} (ha : s.Traces e d a)
    (hstep : (s.link d).phase = some (.working p) →
      LinkStep (s.link d) a { s.link d with conn := x, phase := next.map .working } (notes d o)) :
    Projects s ((s.setConn d x).setWorker w (next.map (Job.mk d))) e o := by
  have ht := tables_setConn hs.toTables d hx
  obtain ⟨hp,hq⟩ := phases_self (s := s.setConn d x) (hs.single d) h next
  refine ⟨⟨ht.kernel,ht.owner,ht.site⟩,le_refl _,.inr ⟨setConn_fd s d hx,.inl rfl⟩,hv,
    .inr ⟨d,worker_known hs h,?_,?_,a,?_,ha⟩⟩
  · intro c hc
    have hpc : ((s.setConn d x).setWorker w (next.map (Job.mk d))).phases c = s.phases c :=
      phases_other (s := s.setConn d x) h hc next
    refine ⟨Link.ext ?_ ?_ rfl ?_,hpc,ho c hc⟩
    · exact Function.update_of_ne hc ..
    · exact registered_setConn s d hx c
    · exact congrArg List.head? hpc
  · rw [hq]
    cases next <;> simp
  · have hlink : ((s.setConn d x).setWorker w (next.map (Job.mk d))).link d =
        { s.link d with conn := x, phase := next.map .working } := by
      refine Link.ext ?_ ?_ rfl ?_
      · exact Function.update_self ..
      · exact registered_setConn s d hx d
      · refine (congrArg List.head? hq).trans ?_
        cases next <;> rfl
    rw [hlink]
    exact hstep (congrArg List.head? hp)

theorem Projects.dispatcher {s t : Server} {e : Event} {o : List Out} (h : Projects s t e o)
    (hk : Keeps s t) (d : Dispatcher) : Projects s { t with dispatcher := d } e o := by
  refine ⟨⟨h.tables.kernel,h.tables.owner,h.tables.site⟩,h.accepted,.inr ⟨hk.fd,hk.table⟩,h.via,?_⟩
  rcases h.moves with hm | ⟨c,hm⟩
  · exact .inl hm
  · exact .inr ⟨c,hm.known,hm.other,hm.single,hm.self⟩

theorem stage_self {s : Server} {site : Site} {p : Pending} (h : s.loop = some (site, p)) :
    s.stage site.conn = some p := by
  simp [stage, h]

theorem stage_other {s : Server} {site : Site} {p : Pending} (h : s.loop = some (site, p)) {c : Nat}
    (hc : c ≠ site.conn) : s.stage c = none := by
  simp [stage, h, Ne.symm hc]

theorem phases_turn (site : Site) (t : Turn) (s : Server) (c : Nat) :
    (s.turn site t).phases c = s.tasks.filterMap (Task.phase c) ++
      ((t.submits.map (Task.mk site.conn)).toList.filterMap (Task.phase c) ++
        s.workers.filterMap (Job.phase c)) := by
  simp [phases]

theorem stage_turn (site : Site) (t : Turn) (s : Server) (c : Nat) :
    (s.turn site t).stage c = if site.conn = c then t.next else none := by
  cases hn : t.next <;> simp [stage, hn]

theorem tables_turn {s : Server} (hs : s.Tables) {site : Site}
    {p : Pending} (hl : s.loop = some (site, p)) {t : Turn}
    (hx : t.conn.fd = (s.conns site.conn).fd) (hc : t.closes = true → t.next = none) :
    (s.turn site t).Tables := by
  refine ⟨?_,?_,?_⟩
  · simp [hs.kernel]
  · intro fd c h
    have hco : s.connections fd = some c := by
      cases hcl : t.closes with
      | false => simpa [hcl] using h
      | true =>
        rcases eq_or_ne fd site.fd with rfl | hfd
        · simp [hcl] at h
        · simpa [hcl, hfd] using h
    obtain ⟨ha,hf⟩ := hs.owner fd c hco
    refine ⟨by simpa using ha,?_⟩
    rcases eq_or_ne c site.conn with rfl | hcs
    · simp [hx, hf]
    · simp [hcs, hf]
  · intro site' p' h
    simp only [turn_loop, Option.map_eq_some_iff, Prod.mk.injEq] at h
    obtain ⟨q,hq,rfl,rfl⟩ := h
    cases hcl : t.closes with
    | false => simpa [hcl] using hs.site _ _ hl
    | true => simp [hc hcl] at hq

theorem keeps_turn {s : Server} {site : Site} {t : Turn}
    (hx : t.conn.fd = (s.conns site.conn).fd) : Keeps s (s.turn site t) := by
  refine ⟨?_,?_⟩
  · intro c
    rw [turn_conns]
    exact setConn_fd s site.conn hx c
  · rw [turn_fdTable]
    split
    · exact .inr ⟨site.fd,rfl⟩
    · exact .inl rfl

theorem registered_turn_self {s : Server} (hs : s.Tables) {site : Site}
    {p : Pending} (hl : s.loop = some (site, p)) {t : Turn}
    (hx : t.conn.fd = (s.conns site.conn).fd) :
    (s.turn site t).registered site.conn =
      if t.closes then none else t.registers.or (s.registered site.conn) := by
  have hsite := hs.site _ _ hl
  have hfd := (hs.owner _ _ hsite).2
  cases hcl : t.closes with
  | true => simp [registered, hx, hfd, hcl]
  | false => simp [registered, hx, hfd, hcl, hsite]

theorem registered_turn_other {s : Server} (hs : s.Tables) {site : Site}
    {p : Pending} (hl : s.loop = some (site, p)) (t : Turn) {c : Nat} (hc : c ≠ site.conn) :
    (s.turn site t).registered c = s.registered c := by
  have hsite := hs.site _ _ hl
  rcases eq_or_ne (s.conns c).fd site.fd with hfd | hfd
  · cases hcl : t.closes <;> simp [registered, hc, hfd, hcl, hsite, Ne.symm hc]
  · cases hcl : t.closes <;> simp [registered, hc, hfd, hcl]

theorem turn_projects {s : Server} (hs : s.Sound) {site : Site} {p : Pending} {e : Event}
    (hl : s.loop = some (site, p)) {t : Turn} (hx : t.conn.fd = (s.conns site.conn).fd)
    (hc : t.closes = true → t.next = none) {o : List Out} (hv : s.Via o)
    (ho : ∀ c, c ≠ site.conn → notes c o = []) {a : Act} (ha : s.Traces e site.conn a)
    (hsub : t.submits ≠ none → s.phases site.conn = [])
    (hstep : LinkStep (s.link site.conn) a ((s.link site.conn).turned t) (notes site.conn o)) :
    Projects s (s.turn site t) e o := by
  have ht := tables_turn hs.toTables hl hx hc
  have hp : (s.turn site t).phases site.conn =
      (t.submits.map Phase.queued).toList ++ s.phases site.conn := by
    cases hcmd : t.submits with
    | none => simp [hcmd, phases]
    | some cmd =>
      have hn := hsub (by simp [hcmd])
      rw [hn, List.append_nil]
      simp only [phases, List.append_eq_nil_iff] at hn
      simp [phases_turn, hcmd, hn, Task.phase]
  refine ⟨ht,by simp,.inr (keeps_turn hx),hv,.inr ⟨site.conn,?_,?_,?_,a,?_,ha⟩⟩
  · simpa using (hs.owner _ _ (hs.site _ _ hl)).1
  · intro c hcd
    have hpc : (s.turn site t).phases c = s.phases c := by
      cases hcmd : t.submits <;> simp [hcmd, phases, Task.phase, Ne.symm hcd]
    refine ⟨Link.ext ?_ ?_ ?_ ?_,hpc,ho c hcd⟩
    · simp [link, hcd]
    · exact registered_turn_other hs.toTables hl t hcd
    · refine (stage_turn site t s c).trans ?_
      rw [if_neg (Ne.symm hcd)]
      exact (stage_other hl hcd).symm
    · exact congrArg List.head? hpc
  · refine le_of_eq_of_le (congrArg List.length hp) ?_
    cases hcmd : t.submits with
    | none => simpa using hs.single site.conn
    | some cmd => simp [hsub (by simp [hcmd])]
  · have hlink : (s.turn site t).link site.conn = (s.link site.conn).turned t := by
      refine Link.ext ?_ ?_ ?_ ?_
      · simp [link, Link.turned]
      · exact registered_turn_self hs.toTables hl hx
      · refine (stage_turn site t s site.conn).trans ?_
        simp [Link.turned]
      · refine (congrArg List.head? hp).trans ?_
        cases hcmd : t.submits <;> simp [Link.turned, link, hcmd]
    rwa [hlink]

end Server

end CacheForge
