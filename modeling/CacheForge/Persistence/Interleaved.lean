import CacheForge.Persistence.Concurrent
import CacheForge.Persistence.Restart
import CacheForge.Protocol.Linearized

namespace CacheForge

namespace Command

def Within (K : Finset Str) (cmd : Command) : Prop :=
  (cmd.type ≠ .expire ∧ cmd.type ≠ .stats) ∧ ∀ k ∈ cmd.setKey, k ∈ K

instance (K : Finset Str) (cmd : Command) : Decidable (cmd.Within K) :=
  @instDecidableAnd _ _ (inferInstanceAs (Decidable (_ ∧ _))) (Option.decidableForallMem _)

def Restorable (K : Finset Str) (cmd : Command) : Prop :=
  cmd.Within K ∧ (∀ a ∈ cmd.args, '\n' ∉ a) ∧ ∀ t ∈ storedTokens cmd, Survives t

instance (K : Finset Str) (cmd : Command) : Decidable (cmd.Restorable K) :=
  inferInstanceAs (Decidable (_ ∧ _))

end Command

def Workers.pending (s : Workers) : List Record := s.activities.filterMap Activity.unlogged

def Careful (K : Finset Str) (s : Workers) : WorkerEvent → Prop
  | .call _ cmd => cmd.Restorable K
  | .step w _ => ∀ k ∈ s.activities[w]?.bind Activity.writes, ∀ rec ∈ s.pending, rec.key ≠ k
  | .sweep _ _ _ => True

instance (K : Finset Str) (s : Workers) (e : WorkerEvent) : Decidable (Careful K s e) :=
  match e with
  | .call _ cmd => inferInstanceAs (Decidable (cmd.Restorable K))
  | .step w _ => Option.decidableForallMem (o := s.activities[w]?.bind Activity.writes)
  | .sweep _ _ _ => isTrue trivial

section

variable (hash : Str → Nat) (K : Finset Str)

structure Tallies (s : Workers) (recs : List Record) : Prop where
  writer : s.dispatcher.aofWriter = some ⟨true, false, recs.map Record.line⟩
  ordered : Ordered hash ⟨s.dispatcher.storage, ⟨true, false, recs.map Record.line⟩, s.pending⟩ recs
  evicted : s.dispatcher.storage.evictedKeys = 0
  fits : Fits hash K s.dispatcher.storage
  keys : ∀ rec ∈ recs ++ s.pending, ∀ k v, rec = .set k v → k ∈ K
  seated : ∀ a ∈ s.activities, ∃ x, Seated a x ∧ ∀ cmd, x = .called cmd → cmd.Restorable K

variable {hash K}

theorem Ordered.timeless {s : Writers} {os : List Record} (h : Ordered hash s os)
    (he : s.storage.evictedKeys = 0) (hf : Fits hash K s.storage) : s.storage.Timeless := by
  refine fun i => Shard.Timeless.of_lookup fun k v d hk => ?_
  obtain ⟨-,hi⟩ := hf.placed i k (by simp [hk])
  have hv := h.values he k
  rw [ShardedStorage.lookup, hi, hk] at hv
  exact lastWrite_timeless hv.symm

namespace Tallies

variable {s : Workers} {recs recs' : List Record} {w : Nat} {a a' : Activity} {x : Seat}
  {d' : Dispatcher} {r : Readings}

theorem start {maxKeys : Nat} (startTime : Int) (n : Nat)
    (hroom : ∀ i, (K.filter (fun k => shardIndex hash k = i)).card ≤ max 1 (maxKeys / numShards)) :
    Tallies hash K ⟨.fresh maxKeys startTime, List.replicate n .idle⟩ [] := by
  have hnone : (Workers.mk (.fresh maxKeys startTime) (List.replicate n .idle)).pending = [] :=
    List.filterMap_eq_nil_iff.mpr fun a ha => by rw [List.eq_of_mem_replicate ha]; rfl
  refine ⟨rfl,⟨rfl,?_,?_,fun _ _ => ?_⟩,rfl,⟨fun i k hk => absurd rfl hk,hroom⟩,?_,fun a ha => ?_⟩
  · simp [hnone]
  · simp [hnone, about]
  · simp [hnone, lastWrite, about]
    rfl
  · simp [hnone]
  · rw [List.eq_of_mem_replicate ha]
    exact ⟨.idle,.idle,by simp⟩

theorem update (h : Tallies hash K s recs) (hw : s.activities[w]? = some a) (hx : Seated a' x)
    (hcmd : ∀ cmd, x = .called cmd → cmd.Restorable K)
    (hwr : d'.aofWriter = some ⟨true, false, recs'.map Record.line⟩)
    (hord : ∀ frame, frame ⊆ s.pending → Ordered hash ⟨s.dispatcher.storage,
        ⟨true, false, recs.map Record.line⟩, a.unlogged.toList ++ frame⟩ recs →
      Ordered hash ⟨d'.storage, ⟨true, false, recs'.map Record.line⟩, a'.unlogged.toList ++ frame⟩
        recs')
    (hev : d'.storage.evictedKeys = 0) (hfits : Fits hash K d'.storage)
    (hkeys : ∀ rec ∈ recs' ++ a'.unlogged.toList, rec ∈ recs ++ a.unlogged.toList ∨
      ∀ k v, rec = .set k v → k ∈ K) :
    Tallies hash K ⟨d', s.activities.set w a'⟩ recs' := by
  obtain ⟨frame,hold,hnew⟩ := Machine.filterMap_set_perm Activity.unlogged hw a'
  have hframe : frame ⊆ s.pending := fun rec hr => hold.mem_iff.mpr (by simp [hr])
  refine ⟨hwr,(hord frame hframe (h.ordered.perm hold)).perm hnew.symm,hev,hfits,fun rec hr => ?_,
    fun b hb => ?_⟩
  · have hmem : rec ∈ recs' ++ a'.unlogged.toList ∨ rec ∈ frame := by
      rcases List.mem_append.mp hr with hr | hr
      · simp [hr]
      · rcases List.mem_append.mp (hnew.mem_iff.mp hr) with hr | hr
        · exact .inl (by simp [hr])
        · exact .inr hr
    rcases hmem with hr | hr
    · rcases hkeys rec hr with hr | hk
      · refine h.keys rec (List.mem_append.mpr ((List.mem_append.mp hr).imp_right fun hr => ?_))
        exact hold.mem_iff.mpr (by simp [hr])
      · exact hk
    · exact h.keys rec (by simp [hframe hr])
  · rcases List.mem_or_eq_of_mem_set hb with hb | rfl
    · exact h.seated b hb
    · exact ⟨x,hx,hcmd⟩

theorem quiet {now : Int} {st : ShardedStorage} (h : Tallies hash K s recs)
    (hq : Quiet now s.dispatcher.storage st) : st.evictedKeys = 0 ∧ Fits hash K st := by
  have htimeless := h.ordered.timeless h.evicted h.fits
  exact ⟨hq.evicted.trans h.evicted,h.fits.quiet (htimeless.unreached now) hq⟩

theorem performs {cmd : Command} (h : Tallies hash K s recs) (hw : s.activities[w]? = some a)
    (hcmd : cmd.Restorable K) (hg : ∀ k ∈ a.writes, ∀ rec ∈ s.pending, rec.key ≠ k)
    (hp : Performed hash r cmd a a' s.dispatcher d' s.dispatcher) :
    Tallies hash K ⟨d', s.activities.set w a'⟩ recs := by
  have he := effect_of hash r s.dispatcher.storage cmd
  have hst : d'.storage = (effect hash r cmd s.dispatcher.storage).1 :=
    hp.storage.symm.trans (dispatch_effect hash r cmd s.dispatcher).1
  obtain ⟨hnone,hrec⟩ := hp.record
  have hwr := hp.writer.trans h.writer
  cases ho : effect hash r cmd s.dispatcher.storage with
  | mk st rec? =>
    rw [ho] at he hst hrec
    obtain rfl : d'.storage = st := hst
    cases rec? with
    | none =>
      obtain ⟨hev,hfits⟩ := h.quiet he.quiet
      refine h.update hw hp.reply (by simp) hwr (fun frame _ hf => ?_) hev hfits
        (fun _ hr => .inl ?_)
      · rw [hnone] at hf
        rw [hrec]
        exact hf.quiet he.quiet
      · rw [hrec] at hr
        rwa [hnone]
    | some rec =>
      have hexpire : ∀ k n, rec ≠ .expire k n := by
        rintro k n rfl
        obtain ⟨⟨b,rest,rfl,-⟩,-⟩ := he.number
        exact hcmd.1.1.1 rfl
      have hset : ∀ k v, rec = .set k v → k ∈ K := by
        rintro k v rfl
        exact hcmd.1.2 k he.setKey
      have hwrite : rec.isWrite = true := by
        cases rec with
        | expire k n => exact absurd rfl (hexpire k n)
        | set k v | del k => rfl
      have happly := he.record
      refine h.update hw hp.reply (by simp) hwr (fun frame hsub hf => ?_) ?_ ?_ ?_
      · rw [hnone] at hf
        rw [hrec, happly]
        have hnew : ∀ rec' ∈ frame, rec'.key ≠ rec.key := fun rec' hr =>
          hg rec.key (hp.target rec hrec) rec' (hsub hr)
        have hstored := hf.store (r := r) (he.loggable_command hcmd.2.1 hcmd.2.2) hwrite hnew
        exact hstored.perm List.perm_append_comm
      · rw [happly, h.fits.keeps_all r hset]
        exact h.evicted
      · rw [happly]
        exact h.fits.apply r hset
      · rw [hrec]
        intro rec' hr
        rcases List.mem_append.mp hr with hr | hr
        · exact .inl (by simp [hr])
        · cases List.mem_singleton.mp hr
          exact .inr hset

theorem advance {ns : List Notice} (h : Tallies hash K s recs) (hw : s.activities[w]? = some a)
    (hg : ∀ k ∈ a.writes, ∀ rec ∈ s.pending, rec.key ≠ k)
    (hadv : a.advance hash r s.dispatcher = some (a', d', ns)) :
    ∃ recs', Tallies hash K ⟨d', s.activities.set w a'⟩ recs' := by
  obtain ⟨x,hx,hcmd⟩ := h.seated a (List.mem_of_getElem? hw)
  cases hx.advances rfl hadv with
  | returned response =>
    exact ⟨recs,h.update hw .idle (by simp) h.writer (fun _ _ hf => hf) h.evicted h.fits
      (fun _ hr => .inl hr)⟩
  | logged rec response =>
    have hlog : AOFWriter.log rec ⟨true, false, recs.map Record.line⟩ =
        ⟨true, false, (recs ++ [rec]).map Record.line⟩ := by
      simp [AOFWriter.log, AOFWriter.enqueue]
    have hqueue : (s.dispatcher.log (AOFWriter.log rec)).aofWriter =
        some ⟨true, false, (recs ++ [rec]).map Record.line⟩ := by
      simp only [Dispatcher.log, h.writer, Option.map_some, hlog]
    refine ⟨recs ++ [rec],h.update hw (.replying response) (by simp) hqueue (fun frame _ hf => ?_)
      h.evicted h.fits (fun _ hr => .inl ?_)⟩
    · rw [← hlog]
      exact hf.log (List.getElem?_cons_zero (a := rec))
    · simpa [Activity.unlogged] using hr
  | waits hx' hst haof hl hb =>
    refine ⟨recs,h.update hw hx' hcmd (haof.trans h.writer) (fun frame _ hf => ?_) (hst ▸ h.evicted)
      (hst ▸ h.fits) (fun _ hr => .inl (hl ▸ hr))⟩
    rw [hst, hl]
    exact hf
  | performs hp hns => exact ⟨recs,h.performs hw (hcmd _ rfl) hg hp⟩

theorem step {e : WorkerEvent} {t : Workers} {o : List (Nat × Notice)} (h : Tallies hash K s recs)
    (hg : Careful K s e) (hstep : (dispatchingBy hash).step s e = some (t, o)) :
    ∃ recs', Tallies hash K t recs' := by
  simp only [dispatchingBy, Option.map_eq_some_iff] at hstep
  obtain ⟨⟨t,ns⟩,hstep,heq⟩ := hstep
  cases heq
  cases e with
  | call w cmd =>
    simp only [dispatching] at hstep
    split at hstep
    · rename_i hw
      cases hstep
      refine ⟨recs,h.update hw (.awaits (.called cmd) hg.1.1.2) ?_ h.writer (fun _ _ hf => hf)
        h.evicted h.fits (fun _ hr => .inl hr)⟩
      rintro cmd' ⟨⟩
      exact hg
    · cases hstep
  | step w r =>
    simp only [dispatching] at hstep
    split at hstep
    · cases hstep
    · rename_i a hw
      simp only [Option.map_eq_some_iff] at hstep
      obtain ⟨⟨a',d',ns'⟩,hadv,heq⟩ := hstep
      cases heq
      refine h.advance hw (fun k hk => hg k ?_) hadv
      rwa [hw]
  | sweep now i order =>
    cases hstep
    obtain ⟨he,hx⟩ := Shard.sweepShard_spec now order (s.dispatcher.storage.shards i)
    have hq : Quiet now s.dispatcher.storage (s.dispatcher.storage.sweepShard now i order) :=
      Quiet.locked he hx
    obtain ⟨hev,hfits⟩ := h.quiet hq
    exact ⟨recs,h.writer,h.ordered.quiet hq,hev,hfits,h.keys,h.seated⟩

theorem run {maxKeys : Nat} {startTime : Int} {n : Nat} {es : List WorkerEvent}
    {os : List (Nat × Notice)}
    (hroom : ∀ i, (K.filter (fun k => shardIndex hash k = i)).card ≤ max 1 (maxKeys / numShards))
    (h : (dispatchingBy hash).Run (Careful K) ⟨.fresh maxKeys startTime, List.replicate n .idle⟩ es
      s os) : ∃ recs, Tallies hash K s recs := by
  refine h.invariant (fun s _ => ∃ recs, Tallies hash K s recs) ⟨[],.start startTime n hroom⟩ ?_
  rintro s os e t o ⟨recs,hs⟩ hg hstep
  exact hs.step hg hstep

end Tallies

theorem recover_fits {maxKeys : Nat} (clock : Nat → Readings) {recs : List Record}
    (hroom : ∀ i, (K.filter (fun k => shardIndex hash k = i)).card ≤ max 1 (maxKeys / numShards))
    (hw : ∀ rec ∈ recs, rec.isWrite = true) (hk : ∀ rec ∈ recs, ∀ k v, rec = .set k v → k ∈ K) :
    let st := (recover hash clock recs ⟨.create maxKeys, .zero⟩).storage
    Fits hash K st ∧ st.evictedKeys = 0 ∧ st.Timeless := by
  induction recs using List.reverseRecOn with
  | nil => exact ⟨⟨fun i k hx => absurd rfl hx,hroom⟩,rfl,.create maxKeys⟩
  | append_singleton recs rec ih =>
    obtain ⟨hfits,hev,htimeless⟩ := ih (fun x hx => hw x (by simp [hx]))
      fun x hx => hk x (by simp [hx])
    have hset := hk rec (by simp)
    have hwrite := hw rec (by simp)
    have hexpire : ∀ k n, rec ≠ .expire k n := by
      rintro k n rfl
      cases hwrite
    simp only [recover_snoc, Record.replay_positive hash _ (Record.positive_write hwrite),
      Replayed.applied]
    exact ⟨hfits.apply _ hset,(hfits.keeps_all _ hset).trans hev,htimeless.apply _ hexpire⟩

theorem Tallies.restored {maxKeys : Nat} {s : Workers} {recs : List Record}
    (h : Tallies hash K s recs) (hidle : ∀ a ∈ s.activities, a = .idle) (clock : Nat → Readings)
    (hroom : ∀ i, (K.filter (fun k => shardIndex hash k = i)).card ≤ max 1 (maxKeys / numShards)) :
    s.dispatcher.logged = recs.map Record.line ∧
      Alike hash K s.dispatcher.storage
        (replay hash clock (some (aofFile (recs.map Record.line))) (.create maxKeys)).storage := by
  have hnone : s.pending = [] :=
    List.filterMap_eq_nil_iff.mpr fun a ha => by rw [hidle a ha]; rfl
  have hl : ∀ rec ∈ recs, rec.Loggable ∧ rec.isWrite = true := fun rec hr =>
    h.ordered.loggable rec (by simp [hr])
  have hk : ∀ rec ∈ recs, ∀ k v, rec = .set k v → k ∈ K := fun rec hr => h.keys rec (by simp [hr])
  refine ⟨by rw [Dispatcher.logged, h.writer],?_⟩
  rw [replay_recover hash clock _ fun rec hr => (hl rec hr).1]
  obtain ⟨hfits,hev,htimeless⟩ := recover_fits clock hroom (fun rec hr => (hl rec hr).2) hk
  refine ⟨⟨fun k => ?_,h.fits,hfits⟩,h.ordered.timeless h.evicted h.fits,htimeless⟩
  have hlive := h.ordered.values h.evicted k
  rw [hnone, List.append_nil] at hlive
  rw [recover_writes hash (fun rec hr => (hl rec hr).2) hev k]
  exact congrArg (Option.map outline) hlive.symm

end

end CacheForge
