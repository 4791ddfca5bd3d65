import CacheForge.Library.Machine
import CacheForge.Persistence.Journal

namespace CacheForge

namespace Record

def written : Record → Option Item
  | set _ v => some (v, none)
  | _ => none

def isWrite : Record → Bool
  | expire _ _ => false
  | _ => true

theorem update_write {rec : Record} (h : rec.isWrite = true) (r : Readings) (x : Option Item) :
    rec.update r x = rec.written := by
  cases rec with
  | set k v => rfl
  | del k => rfl
  | expire k n => cases h

theorem positive_write {rec : Record} (h : rec.isWrite = true) : rec.Positive := by
  cases rec with
  | set k v => trivial
  | del k => trivial
  | expire k n => cases h

theorem written_timeless {rec : Record} {v : Str} {d : Option Int}
    (h : rec.written = some (v, d)) : d = none := by
  cases rec <;> simp_all [written]

end Record

def about (k : Str) (recs : List Record) : List Record := recs.filter (fun rec => rec.key = k)

def lastWrite (k : Str) (recs : List Record) : Option Item :=
  (about k recs).getLast?.bind Record.written

theorem about_append (k : Str) (a b : List Record) : about k (a ++ b) = about k a ++ about k b :=
  List.filter_append ..

theorem about_self (rec : Record) : about rec.key [rec] = [rec] := by simp [about]

theorem about_other {k : Str} {rec : Record} (h : k ≠ rec.key) : about k [rec] = [] := by
  simp [about, Ne.symm h]

theorem lastWrite_self (recs : List Record) (rec : Record) :
    lastWrite rec.key (recs ++ [rec]) = rec.written := by
  rw [lastWrite, about_append, about_self]
  simp

theorem lastWrite_other {k : Str} {rec : Record} (recs : List Record) (h : k ≠ rec.key) :
    lastWrite k (recs ++ [rec]) = lastWrite k recs := by
  rw [lastWrite, about_append, about_other h, List.append_nil, ← lastWrite]

theorem lastWrite_timeless {k v : Str} {recs : List Record} {d : Option Int}
    (h : lastWrite k recs = some (v, d)) : d = none := by
  obtain ⟨rec,-,hw⟩ := Option.bind_eq_some_iff.mp h
  exact Record.written_timeless hw

structure Writers where
  storage : ShardedStorage
  aofWriter : AOFWriter
  pending : List Record

inductive WriterStep where
  | store (r : Readings) (text : Str)
  | log (i : Nat)

def Writers.start (maxKeys : Nat) : Writers := ⟨.create maxKeys, .running, []⟩

def Writing (_ : Writers) : WriterStep → Prop
  | .store r text => (Request.line r text).Durable ∧ (parseCommand text).type ∈ [.set, .del]
  | .log _ => True

instance (s : Writers) : DecidablePred (Writing s)
  | .store _ _ => inferInstanceAs (Decidable (_ ∧ _))
  | .log _ => isTrue trivial

def Exclusive (s : Writers) : WriterStep → Prop
  | .store _ text => ∀ rec ∈ s.pending, (parseCommand text).args.head? ≠ some rec.key
  | .log _ => True

instance (s : Writers) : DecidablePred (Exclusive s)
  | .store _ _ => inferInstanceAs (Decidable (∀ rec ∈ s.pending, _))
  | .log _ => isTrue trivial

def Orderly (s : Writers) (e : WriterStep) : Prop := Writing s e ∧ Exclusive s e

instance (s : Writers) (e : WriterStep) : Decidable (Orderly s e) :=
  inferInstanceAs (Decidable (_ ∧ _))

section

variable (hash : Str → Nat)

def writers : Machine Writers WriterStep Record where
  step s e :=
    match e with
    | .store r text =>
        let e := effect hash r (parseCommand text) s.storage
        some (⟨e.1, s.aofWriter, s.pending ++ e.2.toList⟩, [])
    | .log i =>
        match s.pending[i]? with
        | none => none
        | some rec => some (⟨s.storage, s.aofWriter.log rec, s.pending.eraseIdx i⟩, [rec])

theorem dispatch_stores_then_logs (r : Readings) (text : Str) (d : Dispatcher) (w : AOFWriter)
    (hw : d.aofWriter = some w) :
    ∃ s, (writers hash).step ⟨d.storage, w, []⟩ (.store r text) = some (s, []) ∧
      s.storage = (d.dispatch hash r (parseCommand text)).2.storage ∧
      ((s.pending = [] ∧ (d.dispatch hash r (parseCommand text)).2.aofWriter = some w) ∨
        ∃ t os, (writers hash).step s (.log 0) = some (t, os) ∧ t.pending = [] ∧
          t.storage = (d.dispatch hash r (parseCommand text)).2.storage ∧
          (d.dispatch hash r (parseCommand text)).2.aofWriter = some t.aofWriter) := by
  obtain ⟨hst,hwr⟩ := dispatch_effect hash r (parseCommand text) d
  rw [hw, Option.map_some] at hwr
  refine ⟨_,rfl,hst.symm,?_⟩
  cases he : (effect hash r (parseCommand text) d.storage).2 with
  | none =>
    rw [he] at hwr
    exact Or.inl ⟨by simp,hwr⟩
  | some rec =>
    rw [he] at hwr
    exact Or.inr ⟨⟨_,w.log rec,[]⟩,[rec],by simp [writers],rfl,hst.symm,hwr⟩

structure Ordered (s : Writers) (os : List Record) : Prop where
  writer : s.aofWriter = ⟨true, false, os.map Record.line⟩
  loggable : ∀ rec ∈ os ++ s.pending, rec.Loggable ∧ rec.isWrite = true
  alone : ∀ k, (about k s.pending).length ≤ 1
  values : s.storage.evictedKeys = 0 →
    ∀ k, s.storage.lookup hash k = lastWrite k (os ++ s.pending)

variable {hash}

theorem write_only {r : Readings} {st st' : ShardedStorage} {cmd : Command} {rec : Record}
    (h : EffectOf hash r st cmd (st', some rec)) (ht : cmd.type ∈ [.set, .del]) :
    rec.isWrite = true ∧ cmd.args.head? = some rec.key := by
  cases h with
  | set k v rest => exact ⟨rfl,rfl⟩
  | del k rest h => exact ⟨rfl,rfl⟩
  | expire k a rest n hn h => simp at ht

theorem Ordered.quiet {s : Writers} {os : List Record} (h : Ordered hash s os) {now : Int}
    {st : ShardedStorage} (hq : Quiet now s.storage st) :
    Ordered hash ⟨st, s.aofWriter, s.pending⟩ os := by
  refine ⟨h.writer,h.loggable,h.alone,fun he k => ?_⟩
  have hv := h.values (hq.evicted ▸ he) k
  rcases hq.lookup hash k with hk | ⟨hk,hl⟩
  · rw [hk, hv]
  · rw [hk, ← hv]
    cases hx : s.storage.lookup hash k with
    | none => rfl
    | some i =>
      obtain ⟨v,d⟩ := i
      rw [hx] at hv
      have hd := lastWrite_timeless hv.symm
      rw [hx, hd, live_some rfl] at hl
      cases hl

theorem Ordered.perm {st : ShardedStorage} {w : AOFWriter} {pending pending' os : List Record}
    (h : Ordered hash ⟨st, w, pending⟩ os) (hp : pending.Perm pending') :
    Ordered hash ⟨st, w, pending'⟩ os := by
  have habout (k : Str) : about k pending' = about k pending := by
    have hperm : (about k pending).Perm (about k pending') := hp.filter _
    have halone : (about k pending).length ≤ 1 := h.alone k
    cases hk : about k pending with
    | nil =>
      rw [hk] at hperm
      exact hperm.nil_eq.symm
    | cons rec rest =>
      rw [hk, List.length_cons] at halone
      obtain rfl : rest = [] := List.eq_nil_of_length_eq_zero (by omega)
      rw [hk] at hperm
      exact (List.singleton_perm.mp hperm).symm
  refine ⟨h.writer,fun rec hr => h.loggable rec ?_,fun k => ?_,fun he k => ?_⟩
  · exact (hp.append_left os).mem_iff.mpr hr
  · rw [habout]
    exact h.alone k
  · rw [h.values he k, lastWrite, lastWrite, about_append, about_append, habout]

theorem Ordered.store {s : Writers} {os : List Record} (h : Ordered hash s os) {r : Readings}
    {rec : Record} (hl : rec.Loggable) (hw : rec.isWrite = true)
    (hnew : ∀ rec' ∈ s.pending, rec'.key ≠ rec.key) :
    Ordered hash ⟨rec.apply hash r s.storage, s.aofWriter, s.pending ++ [rec]⟩ os := by
  refine ⟨h.writer,fun rec' hr => ?_,fun k => ?_,fun he k => ?_⟩
  · rw [← List.append_assoc, List.mem_append, List.mem_singleton] at hr
    rcases hr with hr | rfl
    · exact h.loggable rec' hr
    · exact ⟨hl,hw⟩
  · rw [about_append]
    by_cases hk : k = rec.key
    · have hnone : about rec.key s.pending = [] := by
        simpa [about, List.filter_eq_nil_iff] using hnew
      rw [hk, hnone, about_self]
      simp
    · rw [about_other hk, List.append_nil]
      exact h.alone k
  · have h0 : s.storage.evictedKeys = 0 :=
      Nat.le_zero.mp (he ▸ Record.apply_evicted hash r rec s.storage)
    rw [← List.append_assoc]
    by_cases hk : k = rec.key
    · rw [hk, Record.apply_self, Record.update_write hw, lastWrite_self]
    · rw [lastWrite_other _ hk, ← h.values h0 k]
      refine (Record.apply_other hash r hk s.storage).resolve_right fun hn => hn.2 ?_
      exact he.trans h0.symm

theorem Ordered.log {s : Writers} {os : List Record} (h : Ordered hash s os) {i : Nat}
    {rec : Record} (hi : s.pending[i]? = some rec) :
    Ordered hash ⟨s.storage, s.aofWriter.log rec, s.pending.eraseIdx i⟩ (os ++ [rec]) := by
  obtain ⟨hlt,rfl⟩ := List.getElem?_eq_some_iff.mp hi
  have hsplit : s.pending = s.pending.take i ++ s.pending[i] :: s.pending.drop (i + 1) := by
    rw [List.getElem_cons_drop, List.take_append_drop]
  rw [List.eraseIdx_eq_take_drop_succ]
  generalize s.pending[i] = rec at hsplit
  generalize s.pending.take i = a at hsplit
  generalize s.pending.drop (i + 1) = b at hsplit
  have hsame : ∀ k, about k (os ++ s.pending) = about k (os ++ [rec] ++ (a ++ b)) := by
    intro k
    have halone := h.alone k
    rw [hsplit, ← List.singleton_append] at halone ⊢
    simp only [about_append, List.append_assoc] at halone ⊢
    by_cases hk : k = rec.key
    · rw [hk, about_self] at halone ⊢
      simp only [List.length_append, List.length_singleton] at halone
      have ha : about rec.key a = [] := List.length_eq_zero_iff.mp (by omega)
      rw [ha]
      rfl
    · rw [about_other hk]
      rfl
  refine ⟨by simp [h.writer, AOFWriter.log, AOFWriter.enqueue],fun rec' hr => ?_,fun k => ?_,
    fun he k => ?_⟩
  · refine h.loggable rec' ?_
    rw [hsplit]
    simp only [List.mem_append, List.mem_cons] at hr ⊢
    tauto
  · have halone := h.alone k
    rw [hsplit, ← List.singleton_append] at halone
    simp only [about_append, List.length_append] at halone ⊢
    omega
  · rw [h.values he k, lastWrite, lastWrite, hsame]

variable (hash)

theorem ordered_run {maxKeys : Nat} {es : List WriterStep} {s : Writers} {os : List Record}
    (h : (writers hash).Run Orderly (.start maxKeys) es s os) : Ordered hash s os := by
  refine Machine.Run.invariant (Ordered hash) ?_ ?_ h
  · exact ⟨rfl,by simp [Writers.start],by simp [Writers.start, about],fun _ _ => rfl⟩
  · rintro s os (⟨r,text⟩ | i) t o hs ⟨hw,hx⟩ hstep
    · have he := effect_of hash r s.storage (parseCommand text)
      simp only [writers, Option.some.injEq, Prod.mk.injEq] at hstep
      obtain ⟨rfl,rfl⟩ := hstep
      rw [List.append_nil]
      cases ho : effect hash r (parseCommand text) s.storage with
      | mk st rec? =>
        rw [ho] at he
        cases rec? with
        | none => simpa using hs.quiet he.quiet
        | some rec =>
          obtain ⟨hwrite,hkey⟩ := write_only he hw.2
          have hnew : ∀ rec' ∈ s.pending, rec'.key ≠ rec.key := fun rec' hr hk =>
            hx rec' hr (hk ▸ hkey)
          rw [he.record]
          exact hs.store (he.loggable hw.1.1 hw.1.2) hwrite hnew
    · simp only [writers] at hstep
      split at hstep
      · cases hstep
      · rename_i rec hi
        simp only [Option.some.injEq, Prod.mk.injEq] at hstep
        obtain ⟨rfl,rfl⟩ := hstep
        exact hs.log hi

theorem recover_writes {maxKeys : Nat} {clock : Nat → Readings} {recs : List Record}
    (hw : ∀ rec ∈ recs, rec.isWrite = true)
    (he : (recover hash clock recs ⟨.create maxKeys, .zero⟩).storage.evictedKeys = 0) (k : Str) :
    (recover hash clock recs ⟨.create maxKeys, .zero⟩).storage.lookup hash k = lastWrite k recs := by
  induction recs using List.reverseRecOn with
  | nil => rfl
  | append_singleton recs rec ih =>
    have hwr := hw rec (by simp)
    rw [recover_snoc, Record.replay_positive hash _ (Record.positive_write hwr)] at he ⊢
    simp only [Replayed.applied] at he ⊢
    have h0 := Nat.le_zero.mp (he ▸ Record.apply_evicted hash (clock recs.length) rec
      (recover hash clock recs ⟨.create maxKeys, .zero⟩).storage)
    by_cases hk : k = rec.key
    · rw [hk, Record.apply_self, Record.update_write hwr, lastWrite_self]
    · rw [lastWrite_other _ hk, ← ih (fun rec h => hw rec (by simp [h])) h0]
      refine (Record.apply_other hash _ hk _).resolve_right fun hn => hn.2 ?_
      exact he.trans h0.symm

theorem concurrent_log_restores (maxKeys : Nat) (clock : Nat → Readings) (es : List WriterStep)
    (s : Writers) (os : List Record)
    (hrun : (writers hash).Run Orderly (.start maxKeys) es s os) (hdone : s.pending = [])
    (hlive : s.storage.evictedKeys = 0)
    (hreplay : (replay hash clock (some (aofFile s.aofWriter.queue))
      (.create maxKeys)).storage.evictedKeys = 0) (k : Str) :
    (replay hash clock (some (aofFile s.aofWriter.queue)) (.create maxKeys)).storage.lookup hash k =
      s.storage.lookup hash k := by
  have h := ordered_run hash hrun
  have hl : ∀ rec ∈ os, rec.Loggable ∧ rec.isWrite = true := fun rec hr =>
    h.loggable rec (by simp [hr])
  rw [h.writer, replay_recover hash clock _ fun rec hr => (hl rec hr).1] at hreplay ⊢
  rw [recover_writes hash (fun rec hr => (hl rec hr).2) hreplay, h.values hlive k, hdone,
    List.append_nil]

end

def twoWriters : List WriterStep :=
  [.store ⟨0, 0⟩ "SET a 1".toList, .store ⟨0, 0⟩ "SET b 2".toList, .log 1, .log 0,
    .store ⟨0, 0⟩ "DEL a".toList, .log 0]

def twoWritersDone : Writers :=
  (((writers (fun _ => 0)).exec Orderly twoWriters (.start 48) []).get (by decide +kernel)).1

theorem two_writers_restored :
    (replay (fun _ => 0) (fun _ => ⟨0, 0⟩) (some (aofFile twoWritersDone.aofWriter.queue))
      (.create 48)).storage.lookup (fun _ => 0) ['b'] = some (['2'], none) :=
  (concurrent_log_restores (fun _ => 0) 48 (fun _ => ⟨0, 0⟩) twoWriters twoWritersDone _
    (Machine.run_of_exec _) (by decide +kernel) (by decide +kernel) (by decide +kernel)
    ['b']).trans (by decide +kernel)

def racingWriters : List WriterStep :=
  [.store ⟨0, 0⟩ "SET k 1".toList, .store ⟨0, 0⟩ "SET k 2".toList, .log 1, .log 0]

theorem racing_writers_diverge :
    ∃ s os, (writers (fun _ => 0)).Run Writing (.start 48) racingWriters s os ∧ s.pending = [] ∧
      s.storage.evictedKeys = 0 ∧
      (replay (fun _ => 0) (fun _ => ⟨0, 0⟩) (some (aofFile s.aofWriter.queue))
        (.create 48)).storage.evictedKeys = 0 ∧
      s.storage.lookup (fun _ => 0) ['k'] = some (['2'], none) ∧
      (replay (fun _ => 0) (fun _ => ⟨0, 0⟩) (some (aofFile s.aofWriter.queue))
        (.create 48)).storage.lookup (fun _ => 0) ['k'] = some (['1'], none) :=
  ⟨_,_,Machine.run_of_exec (by decide +kernel),by decide +kernel⟩

end CacheForge
