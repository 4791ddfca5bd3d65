import CacheForge.Persistence.Torn
import CacheForge.Storage.History

namespace CacheForge

theorem deadlineAfter_shift (t t' n : Int) :
    deadlineAfter t' n = wrap64 (deadlineAfter t n + (t' - t)) := by
  simp only [deadlineAfter, wrap64, Int.bmod_add_bmod, Int.add_bmod_bmod]
  congr 1
  ring

theorem live_past {now D : Int} (v : Str) (h : D ≤ now) : live now (some (v, some D)) = none :=
  live_expired (by simpa [itemExpired] using h)

section

variable (hash : Str → Nat)

theorem get_past {st : ShardedStorage} {k : Str} {D now : Int}
    (h : ∀ v e, st.lookup hash k = some (v, e) → e = some D) (hD : D ≤ now) :
    (st.get hash now k).1 = none := by
  rw [ShardedStorage.get_result]
  cases hk : st.lookup hash k with
  | none => rfl
  | some i =>
    obtain ⟨v,e⟩ := i
    rw [h v e hk, live_past v hD, Option.map_none]

theorem deadline_origin {maxKeys : Nat} {qs : List Request} {k v : Str} {D : Int}
    (h : (Session.run hash qs (.start maxKeys)).storage.lookup hash k = some (v, some D)) :
    ∃ before r text after n, qs = before ++ .line r text :: after ∧
      (∃ a rest, parseCommand text = ⟨.expire, k :: a :: rest⟩ ∧ stoll a = some n) ∧
      D = deadlineAfter r.later n ∧
      ∃ b, (Session.run hash qs (.start maxKeys)).records =
        (Session.run hash before (.start maxKeys)).records ++ .expire k n :: b ∧
        ∀ rec ∈ b, rec.key ≠ k := by
  induction qs using List.reverseRecOn with
  | nil => exact absurd h (by simp [Session.run, Session.start, ShardedStorage.lookup,
      ShardedStorage.create, Shard.lookup, Shard.empty])
  | append_singleton qs q ih =>
    rw [Session.run_snoc] at h ⊢
    rcases Session.step_cases hash (Session.run hash qs (.start maxKeys)) q
      with ⟨st,hs,hq⟩ | ⟨r,text,rec,rfl,hs,he⟩
    · rw [hs] at h ⊢
      rcases hq.lookup hash k with hk | ⟨hk,-⟩
      · obtain ⟨before,r,text,after,n,rfl,hc,hD,b,hb,hne⟩ := ih (hk ▸ h)
        exact ⟨before,r,text,after ++ [q],n,by simp,hc,hD,b,hb,hne⟩
      · exact absurd (hk ▸ h) (by simp)
    · rw [hs] at h ⊢
      by_cases hkey : k = rec.key
      · rw [hkey, Record.apply_self] at h
        cases rec with
        | set k' v' => simp [Record.update] at h
        | del k' => simp [Record.update] at h
        | expire k' n =>
          subst hkey
          simp only [Record.update, if_neg (not_lt.mpr he.accepted.1), Option.map_eq_some_iff,
            Prod.mk.injEq, Option.some.injEq] at h
          obtain ⟨i,-,-,hD⟩ := h
          exact ⟨qs,r,text,[],n,rfl,he.number.1,hD.symm,[],Session.records_logged ..,by simp⟩
      · rcases Record.apply_other hash r hkey (Session.run hash qs (.start maxKeys)).storage
          with hk | ⟨hk,-⟩
        · obtain ⟨before,r',text',after,n,rfl,hc,hD,b,hb,hne⟩ := ih (hk ▸ h)
          refine ⟨before,r',text',after ++ [.line r text],n,by simp,hc,hD,b ++ [rec],?_,?_⟩
          · rw [Session.records_logged, hb]
            simp
          · exact List.forall_mem_append.mpr ⟨hne,by simpa using Ne.symm hkey⟩
        · exact absurd (hk ▸ h) (by simp)

def Untouched (k : Str) (d : Dispatcher) (q : Request) : Prop :=
  ∀ rec : Record, rec.key = k → (d.handle hash q).logged ≠ d.logged ++ [rec.line]

theorem untouched_suffix {maxKeys : Nat} {startTime : Int} {pre post : List Request} {k : Str}
    (h : Along.Holds (Dispatcher.handle hash) (Untouched hash k)
      (serve hash pre (.fresh maxKeys startTime)) post) :
    ∃ c, (Session.run hash (pre ++ post) (.start maxKeys)).records =
        (Session.run hash pre (.start maxKeys)).records ++ c ∧ (∀ rec ∈ c, rec.key ≠ k) ∧
      ((Session.run hash (pre ++ post) (.start maxKeys)).storage.lookup hash k =
          (Session.run hash pre (.start maxKeys)).storage.lookup hash k ∨
        (Session.run hash (pre ++ post) (.start maxKeys)).storage.lookup hash k = none) := by
  induction post using List.reverseRecOn with
  | nil => exact ⟨[],by simp,by simp,by simp⟩
  | append_singleton post q ih =>
    obtain ⟨h,hq⟩ := Along.holds_snoc.mp h
    obtain ⟨c,hc,hne,hk⟩ := ih h
    have hserve : ((serve hash (pre ++ post) (.fresh maxKeys startTime)).handle hash q).logged =
        ((Session.run hash (pre ++ post) (.start maxKeys)).step hash q).lines := by
      rw [← Session.run_snoc, ← serve_logged hash maxKeys startTime]
      simp [serve]
    rw [serve, ← List.foldl_append, ← serve] at hq
    rw [← List.append_assoc, Session.run_snoc]
    rcases Session.step_cases hash (Session.run hash (pre ++ post) (.start maxKeys)) q
      with ⟨st,hs,hquiet⟩ | ⟨r,text,rec,rfl,hs,he⟩
    · rw [hs]
      refine ⟨c,hc,hne,?_⟩
      rcases hquiet.lookup hash k with hx | ⟨hx,-⟩
      · exact hx ▸ hk
      · exact Or.inr hx
    · rw [hs, Session.lines_logged] at hserve
      have hkey : rec.key ≠ k := fun hkey => hq rec hkey (by rw [hserve, serve_logged])
      rw [hs]
      refine ⟨c ++ [rec],by simp [Session.records_logged, hc],
        List.forall_mem_append.mpr ⟨hne,by simpa using hkey⟩,?_⟩
      rcases Record.apply_other hash r (Ne.symm hkey)
        (Session.run hash (pre ++ post) (.start maxKeys)).storage with hx | ⟨hx,-⟩
      · exact hx ▸ hk
      · exact Or.inr hx

theorem recover_deadline {clock : Nat → Readings} {a b : List Record} {k : Str} {n : Int}
    (p : Replayed) (hn : 0 < n) (hb : ∀ rec ∈ b, rec.key ≠ k) {v : Str} {e : Option Int}
    (h : (recover hash clock (a ++ .expire k n :: b) p).storage.lookup hash k = some (v, e)) :
    e = some (deadlineAfter (clock a.length).later n) := by
  induction b using List.reverseRecOn with
  | nil =>
    have hpos : (Record.expire k n).Positive := hn
    rw [recover_snoc, Record.replay_positive hash _ hpos] at h
    have hs := Record.apply_self hash (clock a.length) (.expire k n)
      (recover hash clock a p).storage
    simp only [Replayed.applied] at h
    simp only [Record.key] at hs
    rw [hs, Record.update, if_neg (not_lt.mpr hn.le), Option.map_eq_some_iff] at h
    obtain ⟨i,-,hi⟩ := h
    cases hi
    rfl
  | append_singleton b rec ih =>
    rw [← List.cons_append, ← List.append_assoc, recover_snoc] at h
    rcases Record.replay_other hash _ (Ne.symm (hb rec (by simp))) _ with hx | hx
    · exact ih (fun rec hr => hb rec (by simp [hr])) (hx ▸ h)
    · rw [hx] at h
      cases h

def Record.Spares (k : Str) (r : Readings) (st : ShardedStorage) : Record → Prop
  | .set x _ => k ∉ (st.shards (shardIndex hash x)).insertEvictees st.maxKeysPerShard x
  | .del _ => True
  | .expire x _ => x = k → ∀ i ∈ st.lookup hash k, itemExpired r.now i = false

instance (k : Str) (r : Readings) (st : ShardedStorage) : DecidablePred (Record.Spares hash k r st)
  | .set _ _ => inferInstanceAs (Decidable (_ ∉ _))
  | .del _ => isTrue trivial
  | .expire _ _ => @instDecidableForall _ _ _ (Option.decidableForallMem _)

def Spared (k : Str) (p : Replayed) (l : Readings × Str) : Prop :=
  ∀ rec ∈ (parseCommand l.2).record, rec.Spares hash k l.1 p.storage

instance (k : Str) (p : Replayed) (l : Readings × Str) : Decidable (Spared hash k p l) :=
  Option.decidableForallMem _

theorem Spared.record {rec : Record} {k : Str} {r : Readings} {p : Replayed}
    (h : Spared hash k p (r, rec.line)) (hl : rec.Loggable) (hpos : rec.Positive) :
    rec.Spares hash k r p.storage :=
  h rec ((congrArg Command.record (parse_line hl)).trans (command_record hl.2.2 hpos))

theorem Record.replay_spared {rec : Record} {k : Str} {r : Readings} {p : Replayed}
    (h : rec.Positive → rec.Spares hash k r p.storage) (hk : k ≠ rec.key) :
    (rec.replay hash r p).storage.lookup hash k = p.storage.lookup hash k := by
  have keeps (hset : ∀ x v, rec ≠ .set x v) :
      (rec.replay hash r p).storage.lookup hash k = p.storage.lookup hash k := by
    by_cases hpos : rec.Positive
    · rw [Record.replay_positive hash r hpos]
      refine (Record.apply_other hash r hk p.storage).resolve_right fun hn => hn.2 ?_
      exact Record.apply_evicts_nothing hash r hset p.storage
    · rw [Record.replay_rejected hash r hpos]
  cases rec with
  | set x v =>
    have hspare : k ∉ (p.storage.shards (shardIndex hash x)).insertEvictees
        p.storage.maxKeysPerShard x := h trivial
    simp only [Record.replay, Replayed.applied, ShardedStorage.lookup, ShardedStorage.set,
      ShardedStorage.onShard, ShardedStorage.locked_shards]
    split
    · rename_i hi
      rw [Shard.insertOrUpdate_lookup _ x v none _ hk, if_neg hspare, hi]
    · rfl
  | del x | expire x n => exact keeps (by simp)

theorem Record.replay_spared_self {rec : Record} {r r' : Readings} {p : Replayed} {x : Option Item}
    {v : Str} {e : Option Int} (h : rec.Positive → rec.Spares hash rec.key r' p.storage)
    (ha : rec.Accepted) (hlive : rec.update r x = some (v, e))
    (hx : ∀ e, x = some (v, e) → ∃ e', p.storage.lookup hash rec.key = some (v, e')) :
    ∃ e', (rec.replay hash r' p).storage.lookup hash rec.key = some (v, e') := by
  by_cases hpos : rec.Positive
  · rw [Record.replay_positive hash r' hpos]
    simp only [Replayed.applied, Record.apply_self]
    cases rec with
    | set k w =>
      cases hlive
      exact ⟨none,rfl⟩
    | del k => cases hlive
    | expire k n =>
      rw [Record.update, if_neg (not_lt.mpr ha.1), Option.map_eq_some_iff] at hlive
      obtain ⟨⟨w,d⟩,hw,hv⟩ := hlive
      cases hv
      obtain ⟨e',he'⟩ := hx d (live_eq_some hw)
      have hlapse : itemExpired r'.now (w, e') = false := h hpos rfl (w, e') he'
      simp only [Record.key] at he' ⊢
      rw [he', Record.update, if_neg (not_lt.mpr ha.1), live_some hlapse]
      exact ⟨_,rfl⟩
  · rw [Record.replay_rejected hash r' hpos]
    cases rec with
    | set k w | del k => exact absurd trivial hpos
    | expire k n =>
      rw [Record.update, if_neg (not_lt.mpr ha.1), Option.map_eq_some_iff] at hlive
      obtain ⟨⟨w,d⟩,hw,hv⟩ := hlive
      cases hv
      exact hx d (live_eq_some hw)

theorem spared_snoc {clock : Nat → Readings} {recs : List Record} {rec : Record} {k : Str}
    {p : Replayed} (hl : ∀ x ∈ recs ++ [rec], x.Loggable)
    (hs : Along.Holds (fun p l => replayLine hash l.1 l.2 p) (Spared hash k) p
      (timed clock ((recs ++ [rec]).map Record.line))) :
    Along.Holds (fun p l => replayLine hash l.1 l.2 p) (Spared hash k) p
        (timed clock (recs.map Record.line)) ∧
      (rec.Positive →
        rec.Spares hash k (clock recs.length) (recover hash clock recs p).storage) := by
  rw [List.map_append, List.map_singleton, timed_snoc] at hs
  obtain ⟨hs,hlast⟩ := Along.holds_snoc.mp hs
  rw [← replayLines, replayLines_recover hash clock p fun x hx => hl x (by simp [hx]),
    List.length_map] at hlast
  exact ⟨hs,hlast.record hash (hl rec (by simp))⟩

theorem recover_spared {clock : Nat → Readings} {a b : List Record} {k : Str} {p : Replayed}
    (hl : ∀ x ∈ a ++ b, x.Loggable) (hb : ∀ rec ∈ b, rec.key ≠ k)
    (hs : Along.Holds (fun p l => replayLine hash l.1 l.2 p) (Spared hash k) p
      (timed clock ((a ++ b).map Record.line))) :
    Along.Holds (fun p l => replayLine hash l.1 l.2 p) (Spared hash k) p
        (timed clock (a.map Record.line)) ∧
      (recover hash clock (a ++ b) p).storage.lookup hash k =
        (recover hash clock a p).storage.lookup hash k := by
  induction b using List.reverseRecOn with
  | nil => simpa using hs
  | append_singleton b rec ih =>
    rw [← List.append_assoc] at hl hs ⊢
    obtain ⟨hs,hspare⟩ := spared_snoc hash hl hs
    obtain ⟨ha,hsame⟩ := ih (fun x hx => hl x (List.mem_append_left [rec] hx))
      (fun x hx => hb x (by simp [hx])) hs
    refine ⟨ha,?_⟩
    rw [recover_snoc, Record.replay_spared hash hspare (Ne.symm (hb rec (by simp))), hsame]

theorem recover_kept {maxKeys : Nat} {clock : Nat → Readings} {qs : List Request} {k v : Str}
    {e : Option Int} (hd : ∀ q ∈ qs, q.Durable)
    (hs : Along.Holds (fun p l => replayLine hash l.1 l.2 p) (Spared hash k)
      ⟨.create maxKeys, .zero⟩ (timed clock (Session.run hash qs (.start maxKeys)).lines))
    (h : (Session.run hash qs (.start maxKeys)).storage.lookup hash k = some (v, e)) :
    ∃ e', (recover hash clock (Session.run hash qs (.start maxKeys)).records
      ⟨.create maxKeys, .zero⟩).storage.lookup hash k = some (v, e') := by
  induction qs using List.reverseRecOn generalizing v e with
  | nil => cases h
  | append_singleton qs q ih =>
    have hl := Session.records_loggable hash maxKeys hd
    have ih {v : Str} {e : Option Int} := ih (v := v) (e := e) fun q hq => hd q (by simp [hq])
    rw [Session.run_snoc] at hs h hl ⊢
    rcases Session.step_cases hash (Session.run hash qs (.start maxKeys)) q
      with ⟨st,hstep,hquiet⟩ | ⟨r,text,rec,rfl,hstep,he⟩
    · rw [hstep] at hs h ⊢
      rcases hquiet.lookup hash k with hk | ⟨hk,-⟩
      · exact ih hs (hk ▸ h)
      · cases hk.symm.trans h
    · rw [hstep] at hs h hl ⊢
      rw [Session.records_logged] at hl ⊢
      rw [Session.lines, Session.records_logged] at hs
      obtain ⟨hs,hspare⟩ := spared_snoc hash hl hs
      rw [recover_snoc]
      by_cases hk : k = rec.key
      · subst hk
        rw [Record.apply_self] at h
        exact Record.replay_spared_self hash hspare he.accepted h fun e hx => ih hs hx
      · rw [Record.replay_spared hash hspare hk]
        rcases Record.apply_other hash r hk (Session.run hash qs (.start maxKeys)).storage
          with hx | ⟨hx,-⟩
        · exact ih hs (hx ▸ h)
        · cases hx.symm.trans h

theorem replayed_deadline_shifts (maxKeys : Nat) (startTime : Int) (clock : Nat → Readings)
    (pre post : List Request) (hd : ∀ q ∈ pre ++ post, q.Durable) (k v : Str) (D : Int)
    (hD : (serve hash pre (.fresh maxKeys startTime)).storage.lookup hash k = some (v, some D))
    (hpost : Along.Holds (Dispatcher.handle hash) (Untouched hash k)
      (serve hash pre (.fresh maxKeys startTime)) post) :
    ∃ before r text after n, pre = before ++ .line r text :: after ∧
      (∃ a rest, parseCommand text = ⟨.expire, k :: a :: rest⟩ ∧ stoll a = some n) ∧
      D = deadlineAfter r.later n ∧
      (∀ t, D ≤ t →
        ((serve hash (pre ++ post) (.fresh maxKeys startTime)).storage.get hash t k).1 = none) ∧
      (0 < n →
        let d := serve hash (pre ++ post) (.fresh maxKeys startTime)
        let p := replay hash clock (some (aofFile d.logged)) (.create maxKeys)
        let r' := clock (serve hash before (.fresh maxKeys startTime)).logged.length
        let D' := wrap64 (D + (r'.later - r.later))
        (∀ v' e, p.storage.lookup hash k = some (v', e) → e = some D') ∧
        (∀ t, D' ≤ t → (p.storage.get hash t k).1 = none) ∧
        (Along.Holds (fun p l => replayLine hash l.1 l.2 p) (Spared hash k)
          ⟨.create maxKeys, .zero⟩ (timed clock d.logged) →
          p.storage.lookup hash k = some (v, some D'))) := by
  rw [(serve_session hash maxKeys startTime pre).1] at hD
  obtain ⟨before,r,text,after,n,hpre,hc,hdead,b,hb,hne⟩ := deadline_origin hash hD
  obtain ⟨c,hrecs,hclean,hk⟩ := untouched_suffix hash hpost
  refine ⟨before,r,text,after,n,hpre,hc,hdead,fun t ht => get_past hash (fun v' e he => ?_) ht,?_⟩
  · rw [(serve_session hash maxKeys startTime (pre ++ post)).1] at he
    rcases hk with hk | hk
    · rw [hk, hD] at he
      cases he
      rfl
    · rw [hk] at he
      cases he
  · intro hn d p r' D'
    have hlast : ∀ v' e, p.storage.lookup hash k = some (v', e) → e = some D' := by
      intro v' e he
      have hlater : ∀ rec ∈ b ++ c, rec.key ≠ k := List.forall_mem_append.mpr ⟨hne,hclean⟩
      simp only [p, d] at he
      rw [replay_served hash clock _ hd, hrecs, hb, List.append_assoc, List.cons_append] at he
      rw [recover_deadline hash _ hn hlater he, ← logged_length hash maxKeys startTime before,
        deadlineAfter_shift r.later, ← hdead]
    refine ⟨hlast,fun t ht => get_past hash hlast ht,fun hs => ?_⟩
    obtain ⟨e,he⟩ : ∃ e, p.storage.lookup hash k = some (v, e) := by
      have hl := Session.records_loggable hash maxKeys hd
      simp only [d, serve_logged, Session.lines] at hs
      rw [hrecs] at hs hl
      obtain ⟨hs,hsame⟩ := recover_spared hash hl hclean hs
      simp only [p, d]
      rw [replay_served hash clock _ hd, hrecs, hsame]
      exact recover_kept hash (fun q hq => hd q (List.mem_append_left post hq)) hs hD
    rw [he, hlast v e he]

end

def leaseRun : List Request :=
  [.line ⟨0, 0⟩ "SET k v".toList, .line ⟨0, 0⟩ "EXPIRE k 10".toList]

def leaseServed (post : List Request) : Dispatcher :=
  serve (fun _ => 0) (leaseRun ++ post) (.fresh 16 0)

theorem lease_lapses :
    (leaseServed []).storage.lookup (fun _ => 0) ['k'] = some (['v'], some 10000000000) ∧
    ((leaseServed [.line ⟨5, 5⟩ "TTL k".toList]).storage.get (fun _ => 0) 12000000000 ['k']).1 =
      none ∧
    (replay (fun _ => 0) (fun _ => ⟨20000000000, 20000000000⟩)
      (some (aofFile (leaseServed [.line ⟨5, 5⟩ "TTL k".toList]).logged))
      (.create 16)).storage.lookup (fun _ => 0) ['k'] = some (['v'], some 30000000000) := by
  have h := replayed_deadline_shifts (fun _ => 0) 16 0 (fun _ => ⟨20000000000, 20000000000⟩)
    leaseRun [.line ⟨5, 5⟩ "TTL k".toList] (by decide +kernel) ['k'] ['v'] 10000000000
    (by decide +kernel) ⟨fun rec _ hl => by
      have hlen := congrArg List.length hl
      rw [List.length_append, List.length_singleton] at hlen
      revert hlen
      decide +kernel,trivial⟩
  obtain ⟨before,r,text,after,n,hpre,⟨a,rest,hc,hn⟩,-,hlive,hreplay⟩ := h
  refine ⟨by decide +kernel,hlive 12000000000 (by omega),?_⟩
  match before, hpre with
  | [], hpre =>
    cases (List.cons.inj hpre).1
    have htype : CommandType.set = .expire :=
      (by decide +kernel : _ = (parseCommand "SET k v".toList).type).trans
        (congrArg Command.type hc)
    cases htype
  | [_], hpre =>
    cases (List.cons.inj (List.cons.inj hpre).2).1
    have hargs : [['k'], ['1', '0']] = ['k'] :: a :: rest :=
      (by decide +kernel : _ = (parseCommand "EXPIRE k 10".toList).args).trans
        (congrArg Command.args hc)
    cases hargs
    have hten : some n = some 10 := hn.symm.trans (by decide +kernel)
    cases hten
    exact (hreplay (by decide)).2.2 (by decide +kernel)
  | _ :: _ :: _, hpre => simp [leaseRun] at hpre

theorem lease_renewed_by_restart :
    (leaseServed []).storage.lookup (fun _ => 0) ['k'] = some (['v'], some 10000000000) ∧
    ((leaseServed []).storage.get (fun _ => 0) 20000000000 ['k']).1 = none ∧
    ((replay (fun _ => 0) (fun _ => ⟨20000000000, 20000000000⟩)
      (some (aofFile (leaseServed []).logged)) (.create 16)).storage.get
        (fun _ => 0) 20000000000 ['k']).1 = some ['v'] ∧
    (replay (fun _ => 0) (fun _ => ⟨20000000000, 20000000000⟩)
      (some (aofFile (leaseServed []).logged)) (.create 16)).storage.lookup (fun _ => 0) ['k'] =
        some (['v'], some 30000000000) := by
  decide +kernel

end CacheForge
