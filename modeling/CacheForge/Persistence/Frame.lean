import CacheForge.Persistence.Journal
import CacheForge.Protocol.Deadlines
import CacheForge.Protocol.Replies

namespace CacheForge

def ShardedStorage.liveItems (t : Int) (st : ShardedStorage) : Set (Str × Item) :=
  {x | ∃ i, live t ((st.shards i).lookup x.1) = some x.2}

def Dispatcher.Running (d : Dispatcher) : Prop :=
  ∃ w, d.aofWriter = some w ∧ w.enabled = true ∧ w.stopped = false

theorem Quiet.liveItems {now t : Int} {st st' : ShardedStorage} (h : Quiet now st st')
    (ht : now ≤ t) : st'.liveItems t = st.liveItems t := by
  have hlive (i : Fin numShards) (k : Str) :
      live t ((st'.shards i).lookup k) = live t ((st.shards i).lookup k) := by
    rcases h.shard i k with hx | ⟨hgone,hdead⟩
    · rw [hx]
    · rw [hgone, live_none, live_gone ht hdead]
  ext x
  simp only [ShardedStorage.liveItems, Set.mem_ofPred_eq, hlive]

structure Framed (t : Int) (d d' : Dispatcher) : Prop where
  running : d'.Running
  logs : ∃ ls, d'.logged = d.logged ++ ls ∧
    (ls = [] → d'.storage.liveItems t = d.storage.liveItems t)

theorem Framed.trans {t : Int} {d d' d'' : Dispatcher} (h : Framed t d d')
    (h' : Framed t d' d'') : Framed t d d'' := by
  obtain ⟨ls,hls,hlive⟩ := h.logs
  obtain ⟨ms,hms,hlive'⟩ := h'.logs
  refine ⟨h'.running,ls ++ ms,by rw [hms, hls, List.append_assoc],fun hnil => ?_⟩
  obtain ⟨rfl,rfl⟩ := List.append_eq_nil_iff.mp hnil
  exact (hlive' rfl).trans (hlive rfl)

theorem Framed.unlogged {t : Int} {d d' : Dispatcher} (h : Framed t d d')
    (hlog : d'.logged = d.logged) : d'.storage.liveItems t = d.storage.liveItems t := by
  obtain ⟨ls,hls,hlive⟩ := h.logs
  exact hlive (List.append_right_eq_self.mp (hls.symm.trans hlog))

section

variable (hash : Str → Nat)

theorem dispatch_logged {d : Dispatcher} (r : Readings) (cmd : Command) (hrun : d.Running) :
    (d.dispatch hash r cmd).2.Running ∧ (d.dispatch hash r cmd).2.logged =
      d.logged ++ (effect hash r cmd d.storage).2.toList.map Record.line := by
  obtain ⟨w,hw,he,hs⟩ := hrun
  have haof := (dispatch_effect hash r cmd d).2
  rw [hw, Option.map_some, log_running he hs] at haof
  exact ⟨⟨_,haof,he,hs⟩,by rw [Dispatcher.logged, haof, Dispatcher.logged, hw]⟩

theorem dispatch_framed {d : Dispatcher} {r : Readings} {t : Int} (cmd : Command)
    (hrun : d.Running) (ht : r.now ≤ t) : Framed t d (d.dispatch hash r cmd).2 := by
  obtain ⟨hrun',hlog⟩ := dispatch_logged hash r cmd hrun
  refine ⟨hrun',_,hlog,fun hnil => ?_⟩
  have hnone : (effect hash r cmd d.storage).2 = none := by simpa using hnil
  have heff := effect_of hash r d.storage cmd
  rw [← Prod.mk.eta (p := effect hash r cmd d.storage), hnone] at heff
  rw [(dispatch_effect hash r cmd d).1]
  exact heff.quiet.liveItems ht

theorem handle_framed {d : Dispatcher} {t : Int} (q : Request) (hrun : d.Running)
    (ht : q.now ≤ t) : Framed t d (d.handle hash q) := by
  cases q with
  | line r text => exact dispatch_framed hash (parseCommand text) hrun ht
  | sweep now i order =>
    obtain ⟨he,hx⟩ := Shard.sweepShard_spec now order (d.storage.shards i)
    exact ⟨hrun,[],(List.append_nil _).symm,fun _ => (Quiet.locked he hx).liveItems ht⟩

theorem serve_framed {d : Dispatcher} {t : Int} {qs : List Request} (hrun : d.Running)
    (ht : ∀ q ∈ qs, q.now ≤ t) : Framed t d (serve hash qs d) := by
  induction qs generalizing d with
  | nil => exact ⟨hrun,[],(List.append_nil _).symm,fun _ => rfl⟩
  | cons q qs ih =>
    have hstep := handle_framed hash q hrun (ht q (by simp))
    exact hstep.trans (ih hstep.running fun q' hq' => ht q' (by simp [hq']))

theorem unlogged_run_keeps_items {d : Dispatcher} {t : Int} {qs : List Request}
    (hrun : d.Running) (ht : ∀ q ∈ qs, q.now ≤ t)
    (hlog : (serve hash qs d).logged = d.logged) :
    (serve hash qs d).storage.liveItems t = d.storage.liveItems t :=
  (serve_framed hash hrun ht).unlogged hlog

theorem dispatch_refused (r : Readings) (cmd : Command) (d : Dispatcher) :
    (d.dispatch hash r cmd).1.head? ≠ some '-' ∨
      (d.dispatch hash r cmd).2 = { d with totalRequests := d.totalRequests + 1 } := by
  have hreply := dispatch_reply hash r d cmd
  generalize d.dispatch hash r cmd = out at hreply ⊢
  cases hreply with
  | pong => exact Or.inl (show pongResponse.head? ≠ some '-' by decide)
  | ok => exact Or.inl (show okResponse.head? ≠ some '-' by decide)
  | found k =>
    rw [getReply_value]
    exact Or.inl (by simp [valueResponse])
  | number n => exact Or.inl (by simp [integerResponse_head])
  | stats => exact Or.inl (by simp [valueResponse])
  | refused => exact Or.inr rfl

theorem nothing_changes_unlogged (d : Dispatcher) (r : Readings) (cmd : Command) (w : AOFWriter)
    (hw : d.aofWriter = some w) (he : w.enabled = true) (hs : w.stopped = false) :
    ((d.dispatch hash r cmd).2.logged = d.logged → ∀ t, r.now ≤ t →
      (d.dispatch hash r cmd).2.storage.liveItems t = d.storage.liveItems t) ∧
    ("-ERR".toList <+: (d.dispatch hash r cmd).1 →
      (d.dispatch hash r cmd).2 = { d with totalRequests := d.totalRequests + 1 }) := by
  constructor
  · intro hlog t ht
    exact (dispatch_framed hash cmd ⟨w,hw,he,hs⟩ ht).unlogged hlog
  · rintro ⟨message,hreply⟩
    refine (dispatch_refused hash r cmd d).resolve_left (not_not.mpr ?_)
    rw [← hreply]
    rfl

end

def lapsedKey : Dispatcher :=
  (storedKey.dispatch (fun _ => 0) ⟨5, 5⟩ (parseCommand "EXPIRE k 1".toList)).2

theorem lapsed_key_removed_unlogged :
    (lapsedKey.dispatch (fun _ => 0) ⟨2000000000, 2000000000⟩ ⟨.del, [['k']]⟩).2.logged =
        lapsedKey.logged ∧
      lapsedKey.storage.lookup (fun _ => 0) ['k'] = some (['v'], some 1000000005) ∧
      ∀ t, 2000000000 ≤ t →
        (lapsedKey.dispatch (fun _ => 0) ⟨2000000000, 2000000000⟩
          ⟨.del, [['k']]⟩).2.storage.liveItems t = lapsedKey.storage.liveItems t := by
  have hlog : (lapsedKey.dispatch (fun _ => 0) ⟨2000000000, 2000000000⟩
      ⟨.del, [['k']]⟩).2.logged = lapsedKey.logged := by decide +kernel
  refine ⟨hlog,by decide +kernel,?_⟩
  exact (nothing_changes_unlogged (fun _ => 0) lapsedKey ⟨2000000000, 2000000000⟩
    ⟨.del, [['k']]⟩ ⟨true, false, ["SET k v".toList, "EXPIRE k 1".toList]⟩
    (by decide +kernel) rfl rfl).1 hlog

end CacheForge
