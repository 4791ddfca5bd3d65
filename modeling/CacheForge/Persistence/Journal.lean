import CacheForge.Persistence.Effect

namespace CacheForge

inductive Request where
  | line (r : Readings) (text : Str)
  | sweep (now : Int) (shard : Fin numShards) (order : List Str)

namespace Request

def now : Request → Int
  | line r _ => r.now
  | sweep now _ _ => now

def Durable : Request → Prop
  | line _ text => '\n' ∉ text ∧ ∀ t ∈ storedTokens (parseCommand text), Survives t
  | sweep _ _ _ => True

def setKey : Request → Option Str
  | line _ text => (parseCommand text).setKey
  | sweep _ _ _ => none

instance : DecidablePred Durable
  | line _ _ => inferInstanceAs (Decidable (_ ∧ _))
  | sweep _ _ _ => isTrue trivial

variable (hash : Str → Nat)

def effect (q : Request) (st : ShardedStorage) : ShardedStorage × Option (Readings × Record) :=
  match q with
  | line r text =>
      let e := CacheForge.effect hash r (parseCommand text) st
      (e.1, e.2.map (fun rec => (r, rec)))
  | sweep now i order => (st.sweepShard now i order, none)

end Request

structure Session where
  storage : ShardedStorage
  journal : List (Readings × Record)

namespace Session

def records (s : Session) : List Record := s.journal.map Prod.snd

def lines (s : Session) : List Str := s.records.map Record.line

theorem records_logged (s : Session) (st : ShardedStorage) (y : Readings × Record) :
    (Session.mk st (s.journal ++ [y])).records = s.records ++ [y.2] := by
  simp [records]

theorem lines_logged (s : Session) (st : ShardedStorage) (y : Readings × Record) :
    (Session.mk st (s.journal ++ [y])).lines = s.lines ++ [y.2.line] := by
  simp [lines, records]

def start (maxKeys : Nat) : Session := ⟨ShardedStorage.create maxKeys, []⟩

section

variable (hash : Str → Nat)

def step (s : Session) (q : Request) : Session :=
  ⟨(q.effect hash s.storage).1, s.journal ++ (q.effect hash s.storage).2.toList⟩

def run (qs : List Request) (s : Session) : Session := qs.foldl (step hash) s

theorem run_snoc (qs : List Request) (q : Request) (s : Session) :
    run hash (qs ++ [q]) s = (run hash qs s).step hash q := by
  simp [run]

theorem step_cases (s : Session) (q : Request) :
    (∃ st, s.step hash q = ⟨st, s.journal⟩ ∧ Quiet q.now s.storage st) ∨
    ∃ r text rec, q = .line r text ∧
      s.step hash q = ⟨rec.apply hash r s.storage, s.journal ++ [(r, rec)]⟩ ∧
      EffectOf hash r s.storage (parseCommand text) (rec.apply hash r s.storage, some rec) := by
  cases q with
  | line r text =>
    have he := effect_of hash r s.storage (parseCommand text)
    cases h : effect hash r (parseCommand text) s.storage with
    | mk st o =>
      rw [h] at he
      cases o with
      | none => exact Or.inl ⟨st,by simp [step, Request.effect, h],he.quiet⟩
      | some rec =>
        rw [he.record] at h he
        exact Or.inr ⟨r,text,rec,rfl,by simp [step, Request.effect, h],he⟩
  | sweep now i order =>
    refine Or.inl ⟨s.storage.sweepShard now i order,by simp [step, Request.effect],?_⟩
    obtain ⟨he,hx⟩ := Shard.sweepShard_spec now order (s.storage.shards i)
    exact Quiet.locked he hx

theorem step_quiet {s : Session} {q : Request} {st : ShardedStorage}
    (h : s.step hash q = ⟨st, s.journal⟩) : q.effect hash s.storage = (st, none) := by
  simp only [step, mk.injEq, List.append_right_eq_self, Option.toList_eq_nil_iff] at h
  exact Prod.ext h.1 h.2

theorem journal_origin (maxKeys : Nat) (qs : List Request) {y : Readings × Record}
    (h : y ∈ (run hash qs (start maxKeys)).journal) :
    ∃ r text, .line r text ∈ qs ∧
      ∃ st₁ st₂, EffectOf hash r st₁ (parseCommand text) (st₂, some y.2) := by
  induction qs using List.reverseRecOn with
  | nil => simp [run, start] at h
  | append_singleton qs q ih =>
    rw [run_snoc] at h
    have old (h : y ∈ (run hash qs (start maxKeys)).journal) : ∃ r text, .line r text ∈ qs ++ [q] ∧
        ∃ st₁ st₂, EffectOf hash r st₁ (parseCommand text) (st₂, some y.2) := by
      obtain ⟨r,text,hm,he⟩ := ih h
      exact ⟨r,text,by simp [hm],he⟩
    rcases step_cases hash (run hash qs (start maxKeys)) q with ⟨st,hs,-⟩ | ⟨r,text,rec,rfl,hs,he⟩
    · exact old (by simpa [hs] using h)
    · simp only [hs, List.mem_append, List.mem_singleton] at h
      rcases h with h | rfl
      · exact old h
      · exact ⟨r,text,by simp,_,_,he⟩

theorem records_loggable (maxKeys : Nat) {qs : List Request} (hd : ∀ q ∈ qs, q.Durable) :
    ∀ rec ∈ (run hash qs (start maxKeys)).records, rec.Loggable := by
  intro rec hrec
  obtain ⟨y,hy,rfl⟩ := List.mem_map.mp hrec
  obtain ⟨r,text,hm,_,_,he⟩ := journal_origin hash maxKeys qs hy
  exact he.loggable (hd _ hm).1 (hd _ hm).2

end

end Session

def Dispatcher.handle (hash : Str → Nat) (d : Dispatcher) : Request → Dispatcher
  | .line r text => (d.dispatch hash r (parseCommand text)).2
  | .sweep now i order => { d with storage := d.storage.sweepShard now i order }

section

variable (hash : Str → Nat)

def serve (qs : List Request) (d : Dispatcher) : Dispatcher := qs.foldl (Dispatcher.handle hash) d

variable {hash} in
theorem handle_effect (d : Dispatcher) (q : Request) :
    (d.handle hash q).storage = (q.effect hash d.storage).1 := by
  cases q with
  | line r text => exact (dispatch_effect hash r (parseCommand text) d).1
  | sweep now i order => rfl

theorem log_running {w : AOFWriter} (he : w.enabled = true) (hs : w.stopped = false)
    (rec : Option Record) :
    logRecord rec w = { w with queue := w.queue ++ rec.toList.map Record.line } := by
  cases rec with
  | none => simp [logRecord]
  | some rec => simp [logRecord, AOFWriter.log, AOFWriter.enqueue, he, hs]

theorem serve_session (maxKeys : Nat) (startTime : Int) (qs : List Request) :
    (serve hash qs (.fresh maxKeys startTime)).storage =
      (Session.run hash qs (.start maxKeys)).storage ∧
    (serve hash qs (.fresh maxKeys startTime)).aofWriter =
      some ⟨true, false, (Session.run hash qs (.start maxKeys)).lines⟩ := by
  induction qs using List.reverseRecOn with
  | nil => exact ⟨rfl,rfl⟩
  | append_singleton qs q ih =>
    obtain ⟨hst,hw⟩ := ih
    rw [Session.run_snoc, serve, List.foldl_append, List.foldl_cons, List.foldl_nil, ← serve]
    cases q with
    | line r text =>
      have hd := dispatch_effect hash r (parseCommand text)
        (serve hash qs (.fresh maxKeys startTime))
      simp only [Dispatcher.handle, hd.1, hd.2, hst, hw, Option.map_some, log_running]
      refine ⟨rfl,?_⟩
      cases h : (effect hash r (parseCommand text)
        (Session.run hash qs (.start maxKeys)).storage).2 with
      | none => simp [Session.lines, Session.records, Session.step, Request.effect, h]
      | some rec => simp [Session.lines, Session.records, Session.step, Request.effect, h]
    | sweep now i order =>
      simp [Dispatcher.handle, Session.step, Request.effect, Session.lines, Session.records, hst, hw]

theorem serve_logged (maxKeys : Nat) (startTime : Int) (qs : List Request) :
    (serve hash qs (.fresh maxKeys startTime)).logged =
      (Session.run hash qs (.start maxKeys)).lines := by
  rw [Dispatcher.logged, (serve_session hash maxKeys startTime qs).2]

theorem logged_length (maxKeys : Nat) (startTime : Int) (qs : List Request) :
    (serve hash qs (.fresh maxKeys startTime)).logged.length =
      (Session.run hash qs (.start maxKeys)).records.length := by
  rw [serve_logged, Session.lines, List.length_map]

def recover (clock : Nat → Readings) (recs : List Record) (p : Replayed) : Replayed :=
  (recs.mapIdx (fun i rec => (clock i, rec))).foldl (fun p x => x.2.replay hash x.1 p) p

theorem recover_snoc (clock : Nat → Readings) (recs : List Record) (rec : Record) (p : Replayed) :
    recover hash clock (recs ++ [rec]) p =
      rec.replay hash (clock recs.length) (recover hash clock recs p) := by
  simp [recover]

theorem timed_snoc (clock : Nat → Readings) (ls : List Str) (l : Str) :
    timed clock (ls ++ [l]) = timed clock ls ++ [(clock ls.length, l)] := by
  simp [timed]

theorem replayLines_snoc (clock : Nat → Readings) (ls : List Str) (l : Str) (p : Replayed) :
    replayLines hash (timed clock (ls ++ [l])) p =
      replayLine hash (clock ls.length) l (replayLines hash (timed clock ls) p) := by
  rw [timed_snoc]
  simp [replayLines]

theorem replayLines_recover (clock : Nat → Readings) {recs : List Record} (p : Replayed)
    (hl : ∀ rec ∈ recs, rec.Loggable) :
    replayLines hash (timed clock (recs.map Record.line)) p = recover hash clock recs p := by
  induction recs using List.reverseRecOn with
  | nil => rfl
  | append_singleton recs rec ih =>
    rw [List.map_append, List.map_singleton, replayLines_snoc, recover_snoc, List.length_map,
      ih (fun rec h => hl rec (by simp [h])), replayLine_line hash _ _ (hl rec (by simp))]

theorem loggable_lines {recs : List Record} (hl : ∀ rec ∈ recs, rec.Loggable) :
    ∀ l ∈ recs.map Record.line, '\n' ∉ l := by
  intro l hm
  obtain ⟨rec,hr,rfl⟩ := List.mem_map.mp hm
  exact (hl rec hr).1

theorem replay_recover (clock : Nat → Readings) {recs : List Record} (st : ShardedStorage)
    (hl : ∀ rec ∈ recs, rec.Loggable) :
    replay hash clock (some (aofFile (recs.map Record.line))) st =
      recover hash clock recs ⟨st, .zero⟩ := by
  rw [replay, getlines_aofFile (loggable_lines hl), replayLines_recover hash clock _ hl]

theorem replay_served {maxKeys : Nat} {startTime : Int} {qs : List Request}
    (clock : Nat → Readings) (st : ShardedStorage) (hd : ∀ q ∈ qs, q.Durable) :
    replay hash clock (some (aofFile (serve hash qs (.fresh maxKeys startTime)).logged)) st =
      recover hash clock (Session.run hash qs (.start maxKeys)).records ⟨st, .zero⟩ := by
  rw [serve_logged]
  exact replay_recover hash clock st (Session.records_loggable hash maxKeys hd)

end

end CacheForge
