import CacheForge.Library.Transducer
import CacheForge.Persistence.OneLine
import CacheForge.Persistence.Serial

namespace CacheForge

namespace Shard

def Timeless (s : Shard) : Prop := ∀ k e, s.data.lookup k = some e → e.expiresAt = none

namespace Timeless

variable {s : Shard}

theorem not_expired (h : s.Timeless) (now : Int) {k : Str} {e : Entry}
    (hk : s.data.lookup k = some e) : isExpired now e = false := by
  simp [isExpired, h k e hk]

theorem of_lookup (h : ∀ k v d, s.lookup k = some (v, d) → d = none) : s.Timeless :=
  fun k e hk => h k e.value e.expiresAt (lookup_some hk)

theorem item (h : s.Timeless) {k v : Str} {d : Option Int} (hk : s.lookup k = some (v, d)) :
    d = none := by
  obtain ⟨e,he,hi⟩ := Option.map_eq_some_iff.mp hk
  cases hi
  exact h k e he

theorem insertOrUpdate (h : s.Timeless) (cap : Nat) (k v : Str) :
    (s.insertOrUpdate cap k v none).shard.Timeless := by
  refine of_lookup fun x w d hx => ?_
  obtain ⟨hk,hne,-⟩ := Shard.insertOrUpdate_spec cap k v none s
  by_cases hxk : x = k
  · rw [hxk, hk] at hx
    cases hx
    rfl
  · rcases hne x hxk with he | he
    · exact h.item (he ▸ hx)
    · rw [he] at hx
      cases hx

theorem del (h : s.Timeless) (now : Int) (k : Str) : (s.del now k).shard.Timeless := by
  refine of_lookup fun x v d hx => ?_
  rw [(Shard.del_spec now k s).2.2] at hx
  split at hx
  · cases hx
  · exact h.item hx

end Timeless

end Shard

def ShardedStorage.Timeless (st : ShardedStorage) : Prop := ∀ i, (st.shards i).Timeless

def Request.Untimed : Request → Prop
  | .line _ text => (parseCommand text).type ≠ .expire ∧ (parseCommand text).type ≠ .stats
  | .sweep _ _ _ => True

instance : DecidablePred Request.Untimed
  | .line _ _ => inferInstanceAs (Decidable (_ ∧ _))
  | .sweep _ _ _ => isTrue trivial

namespace ShardedStorage.Timeless

variable {st st' : ShardedStorage}

theorem create (maxKeys : Nat) : (ShardedStorage.create maxKeys).Timeless := by
  intro i
  exact Shard.Timeless.of_lookup fun k v d hk => by
    simp [ShardedStorage.create, Shard.lookup, Shard.empty] at hk

theorem unreached (h : st.Timeless) (now : Int) : Unreached now st := by
  intro i k hk
  cases he : (st.shards i).data.lookup k with
  | none => rfl
  | some e => simp [(h i).not_expired now he]

theorem item (h : st.Timeless) {hash : Str → Nat} {k v : Str} {d : Option Int}
    (hk : st.lookup hash k = some (v, d)) : d = none := (h _).item hk

theorem quiet {now : Int} (h : st.Timeless) (hq : Quiet now st st') : st'.Timeless := by
  refine fun i => Shard.Timeless.of_lookup fun k v d hk => ?_
  exact (h i).item ((h.unreached now).quiet hq i k ▸ hk)

theorem apply {hash : Str → Nat} (h : st.Timeless) (r : Readings) {rec : Record}
    (hrec : ∀ k n, rec ≠ .expire k n) : (rec.apply hash r st).Timeless := by
  intro i
  cases rec with
  | set k v =>
    simp only [Record.apply, ShardedStorage.set, ShardedStorage.onShard,
      ShardedStorage.locked_shards]
    split
    · exact (h _).insertOrUpdate _ k v
    · exact h i
  | del k =>
    simp only [Record.apply, ShardedStorage.del, ShardedStorage.onShard,
      ShardedStorage.locked_shards]
    split
    · exact (h _).del r.now k
    · exact h i
  | expire k n => exact absurd rfl (hrec k n)

end ShardedStorage.Timeless

section

variable (hash : Str → Nat)

structure Alike (K : Finset Str) (st st' : ShardedStorage) : Prop where
  mirrors : Mirrors hash K st st'
  live : st.Timeless
  restored : st'.Timeless

variable {hash} {K : Finset Str}

theorem Mirrors.symm {st st' : ShardedStorage} (h : Mirrors hash K st st') :
    Mirrors hash K st' st := ⟨fun k => (h.outlines k).symm,h.restored,h.live⟩

namespace Alike

variable {st st' : ShardedStorage}

theorem create {maxKeys : Nat}
    (hroom : ∀ i, (K.filter (fun k => shardIndex hash k = i)).card ≤ max 1 (maxKeys / numShards)) :
    Alike hash K (.create maxKeys) (.create maxKeys) := by
  have hfits : Fits hash K (.create maxKeys) := ⟨fun i x hx => absurd rfl hx,hroom⟩
  exact ⟨⟨fun _ => rfl,hfits,hfits⟩,.create maxKeys,.create maxKeys⟩

theorem lookup (h : Alike hash K st st') (k : Str) : st'.lookup hash k = st.lookup hash k := by
  have ho := h.mirrors.outlines k
  cases hx : st.lookup hash k with
  | none => simpa [hx] using ho
  | some x =>
    cases hy : st'.lookup hash k with
    | none => simp [hx, hy] at ho
    | some y =>
      obtain ⟨v,d⟩ := x
      obtain ⟨w,e⟩ := y
      obtain rfl := h.live.item hx
      obtain rfl := h.restored.item hy
      simp only [hx, hy, Option.map_some, outline, Option.isSome_none, Option.some.injEq,
        Prod.mk.injEq, and_true] at ho
      rw [ho]

theorem quiet {now now' : Int} {st₁ st₁' : ShardedStorage} (h : Alike hash K st st')
    (hq : Quiet now st st₁) (hq' : Quiet now' st' st₁') : Alike hash K st₁ st₁' :=
  ⟨((h.mirrors.quiet (h.live.unreached _) hq).symm.quiet (h.restored.unreached _) hq').symm,
    h.live.quiet hq,h.restored.quiet hq'⟩

theorem apply (h : Alike hash K st st') (r r' : Readings) {rec : Record}
    (hk : ∀ k v, rec = .set k v → k ∈ K) (hrec : ∀ k n, rec ≠ .expire k n) :
    Alike hash K (rec.apply hash r st) (rec.apply hash r' st') :=
  ⟨h.mirrors.apply (h.live.unreached _) (h.restored.unreached _) hk,h.live.apply r hrec,
    h.restored.apply r' hrec⟩

theorem record (h : Alike hash K st st') (r : Readings) {cmd : Command}
    (hc : cmd.type ≠ .expire) : (effect hash r cmd st').2 = (effect hash r cmd st).2 := by
  obtain ⟨type,args⟩ := cmd
  cases type with
  | expire => exact absurd rfl hc
  | del =>
    rcases args with _ | ⟨k,rest⟩
    · rfl
    · simp only [effect, ShardedStorage.del_result, h.lookup]
  | set => rcases args with _ | ⟨k,_ | ⟨v,rest⟩⟩ <;> rfl
  | get => rcases args with _ | ⟨k,rest⟩ <;> rfl
  | ttl => rcases args with _ | ⟨k,rest⟩ <;> rfl
  | _ => rfl

theorem logged (h : Alike hash K st st') {q : Request} (hq : q.Untimed) :
    (q.effect hash st').2 = (q.effect hash st).2 := by
  cases q with
  | line r text => simp only [Request.effect, h.record r hq.1]
  | sweep now i order => rfl

theorem reply {d d' : Dispatcher} (h : Alike hash K d.storage d'.storage) (r : Readings)
    {cmd : Command} (hc : cmd.type ≠ .expire) (hs : cmd.type ≠ .stats) :
    (d'.dispatch hash r cmd).1 = (d.dispatch hash r cmd).1 := by
  obtain ⟨type,args⟩ := cmd
  cases type with
  | expire => exact absurd rfl hc
  | stats => exact absurd rfl hs
  | get =>
    rcases args with _ | ⟨k,rest⟩
    · rfl
    · rw [dispatch_get, dispatch_get, found_live, found_live, h.lookup]
  | del =>
    rcases args with _ | ⟨k,rest⟩
    · rfl
    · simp only [Dispatcher.dispatch, Dispatcher.dispatchDel, ShardedStorage.del_result, h.lookup]
  | ttl =>
    rcases args with _ | ⟨k,rest⟩
    · rfl
    · simp only [Dispatcher.dispatch, Dispatcher.dispatchTtl, ShardedStorage.ttl_reported, h.lookup]
  | set => rcases args with _ | ⟨k,_ | ⟨v,rest⟩⟩ <;> rfl
  | _ => rfl

theorem response {d d' : Dispatcher} (h : Alike hash K d.storage d'.storage) {q : Request}
    (hq : q.Untimed) : d'.response hash q = d.response hash q := by
  cases q with
  | line r text => exact congrArg some (h.reply r hq.1 hq.2)
  | sweep now i order => rfl

end Alike

theorem untimed_record {r : Readings} {text : Str} {st st₁ : ShardedStorage} {rec : Record}
    (hq : (Request.line r text).Untimed)
    (he : EffectOf hash r st (parseCommand text) (st₁, some rec)) (k : Str) (n : Int) :
    rec ≠ .expire k n := by
  rintro rfl
  obtain ⟨⟨a,rest,hc,-⟩,-⟩ := he.number
  exact hq.1 (by rw [hc])

theorem Request.effect_cases (q : Request) (st : ShardedStorage) :
    (∃ st₁, q.effect hash st = (st₁, none) ∧ Quiet q.now st st₁) ∨
    ∃ r text rec, q = .line r text ∧ q.effect hash st = (rec.apply hash r st, some (r, rec)) ∧
      EffectOf hash r st (parseCommand text) (rec.apply hash r st, some rec) := by
  rcases Session.step_cases hash ⟨st, []⟩ q with ⟨st₁,hs,hq⟩ | ⟨r,text,rec,rfl,hs,he⟩
  · exact .inl ⟨st₁,Session.step_quiet hash hs,hq⟩
  · refine .inr ⟨r,text,rec,rfl,?_,he⟩
    simp only [Session.step, Session.mk.injEq, List.nil_append] at hs
    refine Prod.ext hs.1 ?_
    cases ho : ((Request.line r text).effect hash st).2 with
    | none => simp [ho] at hs
    | some y => simpa [ho] using hs.2

def Request.Within (K : Finset Str) (q : Request) : Prop := q.Untimed ∧ ∀ k ∈ q.setKey, k ∈ K

theorem Alike.effect {st st' : ShardedStorage} (h : Alike hash K st st') {q : Request}
    (hq : q.Within K) : Alike hash K (q.effect hash st).1 (q.effect hash st').1 := by
  have hlog := h.logged hq.1
  rcases q.effect_cases st with ⟨st₁,hs,hquiet⟩ | ⟨r,text,rec,rfl,hs,he⟩
  · rcases q.effect_cases st' with ⟨st₁',hs',hquiet'⟩ | ⟨r,text,rec,rfl,hs',-⟩
    · rw [hs, hs']
      exact h.quiet hquiet hquiet'
    · rw [hs, hs'] at hlog
      cases hlog
  · rcases (Request.line r text).effect_cases st' with ⟨st₁',hs',-⟩ | ⟨r',text',rec',hline,hs',-⟩
    · rw [hs, hs'] at hlog
      cases hlog
    · rw [hs, hs'] at hlog
      cases hline
      cases hlog
      rw [hs, hs']
      refine h.apply r r ?_ (untimed_record hq.1 he)
      rintro k v rfl
      exact hq.2 k he.setKey

theorem Alike.run {s s' : Session} (h : Alike hash K s.storage s'.storage) {qs : List Request}
    (hqs : ∀ q ∈ qs, q.Within K) :
    Alike hash K (Session.run hash qs s).storage (Session.run hash qs s').storage ∧
      ∃ ys, (Session.run hash qs s).journal = s.journal ++ ys ∧
        (Session.run hash qs s').journal = s'.journal ++ ys := by
  induction qs generalizing s s' with
  | nil => exact ⟨h,[],by simp [Session.run]⟩
  | cons q qs ih =>
    have hq := hqs q (by simp)
    have hnext : Alike hash K (s.step hash q).storage (s'.step hash q).storage := h.effect hq
    obtain ⟨halike,ys,hy,hy'⟩ := ih hnext fun p hp => hqs p (by simp [hp])
    refine ⟨halike,(q.effect hash s.storage).2.toList ++ ys,?_,?_⟩
    · refine hy.trans ?_
      simp [Session.step]
    · refine hy'.trans ?_
      simp [Session.step, h.logged hq.1]

theorem Alike.replies {d d' : Dispatcher} (h : Alike hash K d.storage d'.storage)
    {qs : List Request} (hqs : ∀ q ∈ qs, q.Within K) :
    repliesTo hash qs d' = repliesTo hash qs d := by
  induction qs generalizing d d' with
  | nil => rfl
  | cons q qs ih =>
    have hq := hqs q (by simp)
    have hnext : Alike hash K (d.handle hash q).storage (d'.handle hash q).storage := by
      rw [handle_effect, handle_effect]
      exact h.effect hq
    rw [repliesTo, repliesTo, h.response hq.1, ih hnext fun p hp => hqs p (by simp [hp])]

variable (hash)

theorem serve_running {d : Dispatcher} {s : Session} (hst : d.storage = s.storage)
    (hw : d.aofWriter = some ⟨true, false, s.lines⟩) (qs : List Request) :
    (serve hash qs d).storage = (Session.run hash qs s).storage ∧
      (serve hash qs d).aofWriter = some ⟨true, false, (Session.run hash qs s).lines⟩ := by
  induction qs generalizing d s with
  | nil => exact ⟨hst,hw⟩
  | cons q qs ih =>
    refine ih (d := d.handle hash q) (s := s.step hash q) ?_ ?_
    · rw [handle_effect, hst]
      rfl
    · cases q with
      | line r text =>
        rw [Dispatcher.handle, (dispatch_effect hash r (parseCommand text) d).2, hw, hst,
          Option.map_some, log_running rfl rfl]
        cases h : (CacheForge.effect hash r (parseCommand text) s.storage).2 <;>
          simp [Session.lines, Session.records, Session.step, Request.effect, h]
      | sweep now i order =>
        simp [Dispatcher.handle, Session.lines, Session.records, Session.step, Request.effect, hw]

theorem recover_alike {maxKeys : Nat} (clock : Nat → Readings)
    (hroom : ∀ i, (K.filter (fun k => shardIndex hash k = i)).card ≤ max 1 (maxKeys / numShards))
    {qs : List Request} (hqs : ∀ q ∈ qs, q.Within K) :
    Alike hash K (Session.run hash qs (.start maxKeys)).storage
      (recover hash clock (Session.run hash qs (.start maxKeys)).records
        ⟨.create maxKeys, .zero⟩).storage := by
  induction qs using List.reverseRecOn with
  | nil => exact Alike.create hroom
  | append_singleton qs q ih =>
    have ih := ih fun p hp => hqs p (by simp [hp])
    have hq := hqs q (by simp)
    rw [Session.run_snoc]
    rcases Session.step_cases hash (Session.run hash qs (.start maxKeys)) q
      with ⟨st,hs,hquiet⟩ | ⟨r,text,rec,rfl,hs,he⟩
    · rw [hs]
      exact ih.quiet hquiet (.refl q.now _)
    · have hrec := untimed_record hq.1 he
      have hpos : rec.Positive := by
        cases rec with
        | expire k n => exact absurd rfl (hrec k n)
        | _ => trivial
      rw [hs, Session.records_logged, recover_snoc, Record.replay_positive hash _ hpos]
      refine ih.apply r _ ?_ hrec
      rintro k v rfl
      exact hq.2 k he.setKey

theorem records_cut (qs : List Request) (st : ShardedStorage) (m : Nat) :
    ∃ ks, ks <+: qs ∧
      (Session.run hash ks ⟨st, []⟩).records = (Session.run hash qs ⟨st, []⟩).records.take m ∧
      ((Session.run hash qs ⟨st, []⟩).records.length ≤ m → ks = qs) := by
  induction qs using List.reverseRecOn with
  | nil => exact ⟨[],List.prefix_rfl,by simp [Session.run, Session.records],fun _ => rfl⟩
  | append_singleton qs q ih =>
    by_cases hm : (Session.run hash (qs ++ [q]) ⟨st, []⟩).records.length ≤ m
    · exact ⟨qs ++ [q],List.prefix_rfl,(List.take_of_length_le hm).symm,fun _ => rfl⟩
    · obtain ⟨ks,hks,hrec,-⟩ := ih
      refine ⟨ks,hks.trans (List.prefix_append _ _),?_,fun h => absurd h hm⟩
      have hsnoc : (Session.run hash (qs ++ [q]) ⟨st, []⟩).records =
          (Session.run hash qs ⟨st, []⟩).records ++
            (q.effect hash (Session.run hash qs ⟨st, []⟩).storage).2.toList.map Prod.snd := by
        simp [Session.run_snoc, Session.step, Session.records]
      have hone : (q.effect hash (Session.run hash qs ⟨st, []⟩).storage).2.toList.length ≤ 1 := by
        cases (q.effect hash (Session.run hash qs ⟨st, []⟩).storage).2 <;> simp
      rw [hsnoc, List.length_append, List.length_map] at hm
      rw [hrec, hsnoc, List.take_append_of_le_length (by omega)]

end

namespace Writer

theorem file_grows {s t : Writer} {e : WriterEvent} {o : List WriterOut}
    (h : aofWriter.step s e = some (t, o)) : s.file <+: t.file := by
  cases e with
  | log thread rec =>
    rcases (log_spec h).2 with ⟨rfl,-⟩ | ⟨rfl,-⟩
    · exact List.prefix_rfl
    · exact List.prefix_rfl
  | push thread =>
    simp only [aofWriter, push] at h
    split at h <;> cases h
    exact List.prefix_rfl
  | collect =>
    simp only [aofWriter, collect] at h
    split at h
    · split at h
      · cases h
        exact List.prefix_rfl
      · split at h <;> cases h <;> exact List.prefix_rfl
    · cases h
  | write =>
    simp only [aofWriter, write] at h
    split at h
    · split at h <;> cases h <;> exact List.prefix_rfl
    · cases h
  | endBatch elapsed =>
    simp only [aofWriter, endBatch] at h
    split at h
    · cases h
      simp only [flush]
      split
      · split
        · exact List.prefix_append _ _
        · exact List.prefix_rfl
      · exact List.prefix_rfl
    · cases h
  | spill count =>
    simp only [aofWriter, spill] at h
    split at h <;> cases h
    exact List.prefix_append _ _
  | fail =>
    cases h
    exact List.prefix_rfl
  | stop =>
    simp only [aofWriter, stop] at h
    split at h <;> cases h
    exact List.prefix_rfl
  | requestStop =>
    simp only [aofWriter, requestStop] at h
    split at h <;> cases h
    exact List.prefix_rfl
  | join =>
    simp only [aofWriter, join] at h
    split at h <;> cases h
    exact List.prefix_rfl
  | close =>
    simp only [aofWriter, close] at h
    split at h <;> cases h
    exact List.prefix_append _ _

theorem run_grows {file : Str} {es : List WriterEvent} {s : Writer} {os : List WriterOut}
    (h : aofWriter.Run StaysGood (.start file) es s os) : file <+: s.file :=
  h.invariant (fun s _ => file <+: s.file) List.prefix_rfl fun _ _ _ _ _ hs _ hstep =>
    hs.trans (file_grows hstep)

end Writer

theorem left_cut {old : List Str} {recs : List Record} {es : List WriterEvent} {s : Writer}
    {os : List WriterOut} (h : aofWriter.Run StaysGood (.start (aofFile old)) es s os)
    (hpushed : pushed os <+: recs.map Record.line) (hclean : ∀ rec ∈ recs, '\n' ∉ rec.line)
    (hend : Ended s.file) :
    ∃ m, s.file = aofFile (old ++ (recs.take m).map Record.line) := by
  obtain ⟨p,hp⟩ := Writer.run_grows h
  have hsound := Writer.run_sound h
  have hbytes := hsound.bytes
  rw [← hp, List.append_assoc, List.append_cancel_left_eq] at hbytes
  have hwrote : wrote os <+: recs.map Record.line :=
    (hsound.flow ▸ List.prefix_append _ _ : wrote os <+: pushed os).trans hpushed
  obtain ⟨later,hlater⟩ := hwrote
  have hfile : p <+: aofFile (recs.map Record.line) := by
    rw [← hlater, aofFile, Lines.join_append]
    exact (hbytes ▸ List.prefix_append p s.buffer : p <+: aofFile (wrote os)).trans
      (List.prefix_append _ _)
  have hjoin (m : Nat) : aofFile old ++ aofFile ((recs.take m).map Record.line) =
      aofFile (old ++ (recs.take m).map Record.line) := (Lines.join_append '\n' _ _).symm
  rcases torn_file hfile with ⟨m,-,rfl⟩ | ⟨before,l,after,t,rfl,rfl,ht⟩
  · exact ⟨m,by rw [← hp, hjoin]⟩
  · refine ⟨before.length,?_⟩
    have hnt : '\n' ∉ t := fun hc => hclean l (by simp) (ht.subset hc)
    have hlast : s.file = Lines.join '\n' (old ++ before.map Record.line) ++ t := by
      rw [← hp, Lines.join_append, List.append_assoc]
      rfl
    have hnil : t = [] := (Lines.join_ends '\n' _ hnt).mpr (hlast ▸ hend)
    rw [hlast, hnil, List.append_nil, List.take_left]
    rfl

theorem stopped_file {file : Str} {lines : List Str} {es : List WriterEvent} {s : Writer}
    {os : List WriterOut} (h : aofWriter.Run StaysGood (.start file) es s os)
    (hret : s.stopping = .returned) (hpushed : pushed os = lines)
    (hbefore : returned (beforeStop os) = lines) : s.file = file ++ aofFile lines := by
  obtain ⟨later,hfile,hlater⟩ := (Writer.run_sound h).stopped hret
  rw [hpushed, hbefore, List.append_assoc, List.self_eq_append_right, List.append_eq_nil_iff]
    at hlater
  rwa [hlater.1, List.append_nil, hbefore] at hfile

structure Life where
  clock : Nat → Readings
  startTime : Int
  requests : List Request
  left : Str

section

variable (hash : Str → Nat) (maxKeys : Nat)

namespace Life

def boot (file : Option Str) (l : Life) : Dispatcher :=
  .create (replay hash l.clock file (.create maxKeys)).storage (some AOFWriter.running) l.startTime

def logged (file : Option Str) (l : Life) : List Str :=
  (serve hash l.requests (l.boot hash maxKeys file)).logged

def Leaves (file : Option Str) (l : Life) : Prop :=
  ∃ es s os, aofWriter.Run StaysGood (.start (file.getD [])) es s os ∧
    pushed os <+: l.logged hash maxKeys file ∧ s.file = l.left ∧ Ended l.left

def Stops (file : Option Str) (l : Life) : Prop :=
  ∃ es s os, aofWriter.Run StaysGood (.start (file.getD [])) es s os ∧ s.stopping = .returned ∧
    pushed os = l.logged hash maxKeys file ∧
    returned (beforeStop os) = l.logged hash maxKeys file ∧ s.file = l.left

end Life

def lives : Machine (Option Str) Life (List Str) where
  step file l := some (some l.left, [repliesTo hash l.requests (l.boot hash maxKeys file)])

def oneServer (d : Dispatcher) (x : Life × List Request) : List Str × Dispatcher :=
  (repliesTo hash x.1.requests d, serve hash x.2 d)

end

section

variable {hash : Str → Nat} {maxKeys : Nat} {K : Finset Str}

theorem replay_lines (clock : Nat → Readings) {file : Option Str} {recs : List Record}
    (st : ShardedStorage) (hfile : file.getD [] = aofFile (recs.map Record.line))
    (hl : ∀ rec ∈ recs, rec.Loggable) :
    (replay hash clock file st).storage = (recover hash clock recs ⟨st, .zero⟩).storage := by
  cases file with
  | some content =>
    obtain rfl : content = _ := hfile
    rw [replay_recover hash clock st hl]
  | none =>
    cases recs with
    | nil => rfl
    | cons rec recs => simp [aofFile] at hfile

variable (hash maxKeys K)

structure Continues (past : List Request) (file : Option Str) : Prop where
  room : ∀ i, (K.filter (fun k => shardIndex hash k = i)).card ≤ max 1 (maxKeys / numShards)
  within : ∀ q ∈ past, q.Within K
  durable : ∀ q ∈ past, q.Durable
  content : file.getD [] = aofFile (Session.run hash past (.start maxKeys)).lines

variable {hash maxKeys K} {past : List Request} {file : Option Str} {l : Life}

theorem life_records (l : Life) (file : Option Str) : l.logged hash maxKeys file =
    (Session.run hash l.requests ⟨(l.boot hash maxKeys file).storage, []⟩).lines := by
  have hrun := serve_running hash (d := l.boot hash maxKeys file)
    (s := ⟨(l.boot hash maxKeys file).storage, []⟩) rfl rfl l.requests
  rw [Life.logged, Dispatcher.logged, hrun.2]

namespace Continues

theorem start
    (hroom : ∀ i, (K.filter (fun k => shardIndex hash k = i)).card ≤ max 1 (maxKeys / numShards)) :
    Continues hash maxKeys K [] none := ⟨hroom,by simp,by simp,rfl⟩

theorem alike (h : Continues hash maxKeys K past file)
    (l : Life) : Alike hash K (Session.run hash past (.start maxKeys)).storage
      (l.boot hash maxKeys file).storage := by
  have hrecover := recover_alike hash l.clock h.room h.within
  rwa [← replay_lines l.clock _ h.content (Session.records_loggable hash maxKeys h.durable)]
    at hrecover

theorem replies (h : Continues hash maxKeys K past file)
    (hl : ∀ q ∈ l.requests, q.Within K) (startTime : Int) :
    repliesTo hash l.requests (l.boot hash maxKeys file) =
      repliesTo hash l.requests (serve hash past (.fresh maxKeys startTime)) := by
  refine Alike.replies ?_ hl
  rw [(serve_session hash maxKeys startTime past).1]
  exact h.alike l

theorem records (h : Continues hash maxKeys K past file)
    (l : Life) {ks : List Request} (hks : ∀ q ∈ ks, q.Within K) :
    (Session.run hash (past ++ ks) (.start maxKeys)).records =
      (Session.run hash past (.start maxKeys)).records ++
        (Session.run hash ks ⟨(l.boot hash maxKeys file).storage, []⟩).records := by
  have hstart : Alike hash K (Session.run hash past (.start maxKeys)).storage
      (Session.mk (l.boot hash maxKeys file).storage []).storage := h.alike l
  obtain ⟨-,ys,hy,hy'⟩ := hstart.run hks
  have hpast : Session.run hash (past ++ ks) (.start maxKeys) =
      Session.run hash ks (Session.run hash past (.start maxKeys)) := List.foldl_append
  rw [hpast, Session.records, Session.records, Session.records, hy, hy', List.map_append,
    List.nil_append]

theorem next (h : Continues hash maxKeys K past file)
    (hl : ∀ q ∈ l.requests, q.Within K) (hd : ∀ q ∈ l.requests, q.Durable) {m : Nat}
    (hleft : l.left = file.getD [] ++ aofFile ((l.logged hash maxKeys file).take m)) :
    ∃ ks, ks <+: l.requests ∧ Continues hash maxKeys K (past ++ ks) (some l.left) ∧
      ((l.logged hash maxKeys file).length ≤ m → ks = l.requests) := by
  obtain ⟨ks,hks,hrec,hall⟩ := records_cut hash l.requests (l.boot hash maxKeys file).storage m
  have hwithin : ∀ q ∈ ks, q.Within K := fun q hq => hl q (hks.subset hq)
  refine ⟨ks,hks,⟨h.room,?_,?_,?_⟩,fun hm => hall ?_⟩
  · exact List.forall_mem_append.mpr ⟨h.within,hwithin⟩
  · exact List.forall_mem_append.mpr ⟨h.durable,fun q hq => hd q (hks.subset hq)⟩
  · rw [Option.getD_some, hleft, h.content, life_records, Session.lines, Session.lines,
      Session.lines, h.records l hwithin, hrec, List.map_append, List.map_take]
    exact (Lines.join_append '\n' _ _).symm
  · simpa [life_records, Session.lines] using hm

theorem leaves (h : Continues hash maxKeys K past file)
    (hl : ∀ q ∈ l.requests, q.Within K) (hd : ∀ q ∈ l.requests, q.Durable)
    (hleaves : l.Leaves hash maxKeys file) :
    ∃ ks, ks <+: l.requests ∧ Continues hash maxKeys K (past ++ ks) (some l.left) := by
  obtain ⟨es,s,os,hrun,hpushed,hleft,hend⟩ := hleaves
  rw [h.content] at hrun
  rw [life_records, Session.lines] at hpushed
  have hloggable := Session.records_loggable hash maxKeys
    (List.forall_mem_append.mpr ⟨h.durable,hd⟩)
  rw [h.records l hl, List.forall_mem_append] at hloggable
  obtain ⟨m,hm⟩ := left_cut hrun hpushed (fun rec hrec => (hloggable.2 rec hrec).1) (hleft ▸ hend)
  obtain ⟨ks,hks,hnext,-⟩ := h.next hl hd (m := m) (by
    rw [← hleft, hm, h.content, life_records, Session.lines, Session.lines, List.map_take]
    exact Lines.join_append '\n' _ _)
  exact ⟨ks,hks,hnext⟩

theorem stops (h : Continues hash maxKeys K past file)
    (hl : ∀ q ∈ l.requests, q.Within K) (hd : ∀ q ∈ l.requests, q.Durable)
    (hstops : l.Stops hash maxKeys file) :
    Continues hash maxKeys K (past ++ l.requests) (some l.left) := by
  obtain ⟨es,s,os,hrun,hret,hpushed,hbefore,hleft⟩ := hstops
  have hfile := stopped_file hrun hret hpushed hbefore
  rw [hleft] at hfile
  obtain ⟨ks,-,hnext,hall⟩ := h.next hl hd (m := (l.logged hash maxKeys file).length)
    (by rw [List.take_length, hfile])
  exact hall le_rfl ▸ hnext

end Continues

theorem lives_continue {P : Option Str → Life → Prop} {C : Life → List Request → Prop}
    (hroom : ∀ i, (K.filter (fun k => shardIndex hash k = i)).card ≤ max 1 (maxKeys / numShards))
    (hstep : ∀ past file l, Continues hash maxKeys K past file → P file l →
      (∀ q ∈ l.requests, q.Within K) → (∀ q ∈ l.requests, q.Durable) →
      ∃ ks, C l ks ∧ Continues hash maxKeys K (past ++ ks) (some l.left))
    (startTime : Int) {ls : List Life} {file : Option Str} {oss : List (List Str)}
    (h : (lives hash maxKeys).Run P none ls file oss)
    (hl : ∀ l ∈ ls, ∀ q ∈ l.requests, q.Within K) (hd : ∀ l ∈ ls, ∀ q ∈ l.requests, q.Durable) :
    ∃ kept : List (Life × List Request), kept.map Prod.fst = ls ∧ (∀ x ∈ kept, C x.1 x.2) ∧
      Continues hash maxKeys K (kept.flatMap Prod.snd) file ∧
      Transducer.run (oneServer hash) kept (.fresh maxKeys startTime) =
        (oss, serve hash (kept.flatMap Prod.snd) (.fresh maxKeys startTime)) := by
  induction h with
  | nil => exact ⟨[],rfl,by simp,.start hroom,rfl⟩
  | @snoc es s os e t o h hguard hs ih =>
    obtain ⟨kept,hkept,hc,hcont,hrun⟩ := ih (fun l hm => hl l (by simp [hm]))
      fun l hm => hd l (by simp [hm])
    obtain ⟨ks,hck,hnext⟩ := hstep _ _ e hcont hguard (hl e (by simp)) (hd e (by simp))
    cases hs
    refine ⟨kept ++ [(e, ks)],by simp [hkept],?_,by simpa using hnext,?_⟩
    · exact List.forall_mem_append.mpr ⟨hc,by simpa using hck⟩
    · rw [Transducer.run_snoc, hrun]
      simp only [oneServer, hcont.replies (hl e (by simp)) startTime]
      simp [serve]

theorem repliesTo_append (qs rs : List Request) (d : Dispatcher) :
    repliesTo hash (qs ++ rs) d = repliesTo hash qs d ++ repliesTo hash rs (serve hash qs d) := by
  induction qs generalizing d with
  | nil => rfl
  | cons q qs ih =>
    rw [List.cons_append, repliesTo, repliesTo, ih, List.append_assoc]
    rfl

variable (hash) in
theorem oneServer_replies {kept : List (Life × List Request)}
    (h : ∀ x ∈ kept, x.2 = x.1.requests) (d : Dispatcher) :
    (Transducer.run (oneServer hash) kept d).1.flatten =
      repliesTo hash (kept.flatMap Prod.snd) d := by
  induction kept generalizing d with
  | nil => rfl
  | cons x kept ih =>
    have hx : x.2 = x.1.requests := h x (by simp)
    simp only [Transducer.run, oneServer, List.flatten_cons, List.flatMap_cons, repliesTo_append,
      hx]
    rw [← ih fun y hy => h y (by simp [hy])]

theorem lives_within {ls : List Life} (h : ∀ l ∈ ls, ∀ q ∈ l.requests, q.Untimed) :
    ∀ l ∈ ls, ∀ q ∈ l.requests,
      q.Within ((ls.flatMap Life.requests).filterMap Request.setKey).toFinset := by
  intro l hl q hq
  refine ⟨h l hl q hq,fun k hk => ?_⟩
  simp only [List.mem_toFinset, List.mem_filterMap, List.mem_flatMap]
  exact ⟨q,⟨l,hl,hq⟩,hk⟩

end

theorem crashes_resume_history (hash : Str → Nat) (maxKeys : Nat) (startTime : Int)
    {ls : List Life} {file : Option Str} {oss : List (List Str)}
    (h : (lives hash maxKeys).Run (fun file l => l.Leaves hash maxKeys file) none ls file oss)
    (hq : ∀ l ∈ ls, ∀ q ∈ l.requests, q.Durable ∧ q.Untimed)
    (hroom : ∀ i, (((ls.flatMap Life.requests).filterMap Request.setKey).toFinset.filter
      (fun k => shardIndex hash k = i)).card ≤ max 1 (maxKeys / numShards)) :
    ∃ kept : List (Life × List Request), kept.map Prod.fst = ls ∧
      (∀ x ∈ kept, x.2 <+: x.1.requests) ∧
      oss = (Transducer.run (oneServer hash) kept (.fresh maxKeys startTime)).1 ∧
      file.getD [] =
        aofFile (serve hash (kept.flatMap Prod.snd) (.fresh maxKeys startTime)).logged := by
  obtain ⟨kept,hkept,hpre,hcont,hrun⟩ := lives_continue (C := fun l ks => ks <+: l.requests) hroom
    (fun past file l hc hl hw hd => hc.leaves hw hd hl) startTime h
    (lives_within fun l hl q hm => (hq l hl q hm).2) (fun l hl q hm => (hq l hl q hm).1)
  refine ⟨kept,hkept,hpre,by rw [hrun],?_⟩
  rw [serve_logged]
  exact hcont.content

def writingLife (left : Str) : Life :=
  ⟨fun _ => ⟨0, 0⟩, 0, [.line ⟨1, 1⟩ "SET a 1".toList, .line ⟨2, 2⟩ "SET b 2".toList], left⟩

def readingLife (left : Str) : Life :=
  ⟨fun _ => ⟨5, 5⟩, 5, [.line ⟨6, 6⟩ "GET a".toList, .line ⟨7, 7⟩ "GET b".toList], left⟩

def bothLines : Str := "SET a 1\nSET b 2\n".toList

instance (file : Str) : Decidable (Ended file) :=
  Option.decidableForallMem (o := file.getLast?)

theorem two_lives (hash : Str → Nat) (maxKeys : Nat) {P : Option Str → Life → Prop} {l l' : Life}
    (h : P none l) (h' : P (some l.left) l') :
    (lives hash maxKeys).Run P none [l, l'] (some l'.left)
      [repliesTo hash l.requests (l.boot hash maxKeys none),
        repliesTo hash l'.requests (l'.boot hash maxKeys (some l.left))] := by
  have hfirst : (lives hash maxKeys).Run P none [l] (some l.left)
      [repliesTo hash l.requests (l.boot hash maxKeys none)] := .single h rfl
  exact hfirst.snoc h' rfl

theorem crashed_write_resumes :
    let ls := [writingLife "SET a 1\n".toList, readingLife "SET a 1\n".toList]
    ∃ oss kept, oss = [["+OK\n".toList, "+OK\n".toList], ["$1\n".toList, "$nil\n".toList]] ∧
      (lives (fun _ => 0) 32).Run (fun file l => l.Leaves (fun _ => 0) 32 file) none ls
        (some "SET a 1\n".toList) oss ∧
      kept.map Prod.fst = ls ∧ (∀ x ∈ kept, x.2 <+: x.1.requests) ∧
      oss = (Transducer.run (oneServer fun _ => 0) kept (.fresh 32 0)).1 := by
  intro ls
  have hwriting : (writingLife "SET a 1\n".toList).Leaves (fun _ => 0) 32 none :=
    ⟨[.log 0 (.set ['a'] ['1']), .push 0, .log 0 (.set ['b'] ['2']), .push 0, .collect, .write,
      .write, .spill 8],_,_,Machine.run_of_exec (by decide +kernel),by decide +kernel,
      by decide +kernel,by decide +kernel⟩
  have hreading : (readingLife "SET a 1\n".toList).Leaves (fun _ => 0) 32
      (some "SET a 1\n".toList) := ⟨[],_,_,.nil,by decide +kernel,rfl,by decide +kernel⟩
  have hrun := two_lives (fun _ => 0) 32 hwriting hreading
  obtain ⟨kept,hkept,hpre,hreplies,-⟩ := crashes_resume_history (fun _ => 0) 32 0 hrun
    (by decide +kernel) (by decide +kernel)
  exact ⟨_,kept,by decide +kernel,hrun,hkept,hpre,hreplies⟩

theorem restarts_invisible (hash : Str → Nat) (maxKeys : Nat) (startTime : Int)
    {ls : List Life} {file : Option Str} {oss : List (List Str)}
    (h : (lives hash maxKeys).Run (fun file l => l.Stops hash maxKeys file) none ls file oss)
    (hq : ∀ l ∈ ls, ∀ q ∈ l.requests, q.Durable ∧ q.Untimed)
    (hroom : ∀ i, (((ls.flatMap Life.requests).filterMap Request.setKey).toFinset.filter
      (fun k => shardIndex hash k = i)).card ≤ max 1 (maxKeys / numShards)) :
    oss.flatten = repliesTo hash (ls.flatMap Life.requests) (.fresh maxKeys startTime) ∧
      file.getD [] =
        aofFile (serve hash (ls.flatMap Life.requests) (.fresh maxKeys startTime)).logged := by
  obtain ⟨kept,hkept,hall,hcont,hrun⟩ := lives_continue (C := fun l ks => ks = l.requests) hroom
    (fun past file l hc hl hw hd => ⟨_,rfl,hc.stops hw hd hl⟩) startTime h
    (lives_within fun l hl q hm => (hq l hl q hm).2) (fun l hl q hm => (hq l hl q hm).1)
  have hpast : kept.flatMap Prod.snd = ls.flatMap Life.requests := by
    rw [← hkept, List.flatMap_map]
    exact List.flatMap_congr fun x hx => hall x hx
  have hreplies := oneServer_replies hash hall (.fresh maxKeys startTime)
  rw [hrun] at hreplies
  rw [serve_logged, ← hpast]
  exact ⟨hreplies,hcont.content⟩

theorem restarted_server_unnoticed :
    let ls := [writingLife bothLines, readingLife bothLines]
    ∃ oss, oss.flatten = ["+OK\n".toList, "+OK\n".toList, "$1\n".toList, "$2\n".toList] ∧
      (lives (fun _ => 0) 32).Run (fun file l => l.Stops (fun _ => 0) 32 file) none ls
        (some bothLines) oss ∧
      oss.flatten = repliesTo (fun _ => 0) (ls.flatMap Life.requests) (.fresh 32 0) := by
  intro ls
  have hwriting : (writingLife bothLines).Stops (fun _ => 0) 32 none :=
    ⟨[.log 0 (.set ['a'] ['1']), .push 0, .log 0 (.set ['b'] ['2']), .push 0, .stop, .requestStop,
      .collect, .write, .write, .endBatch false, .collect, .join, .close],_,_,
      Machine.run_of_exec (by decide +kernel),by decide +kernel,by decide +kernel,
      by decide +kernel,by decide +kernel⟩
  have hreading : (readingLife bothLines).Stops (fun _ => 0) 32 (some bothLines) :=
    ⟨[.stop, .requestStop, .collect, .join, .close],_,_,Machine.run_of_exec (by decide +kernel),
      by decide +kernel,by decide +kernel,by decide +kernel,by decide +kernel⟩
  have hrun := two_lives (fun _ => 0) 32 hwriting hreading
  exact ⟨_,by decide +kernel,hrun,
    (restarts_invisible (fun _ => 0) 32 0 hrun (by decide +kernel) (by decide +kernel)).1⟩

end CacheForge
