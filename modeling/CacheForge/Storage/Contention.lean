import CacheForge.Storage.Locking

namespace CacheForge

namespace Body

def sweepSteps (order : List Str) (scanned : Nat) : Nat :=
  4 * min order.length (Shard.maxScanPerSweep - scanned) + 1

def removalSteps : Removal → Nat
  | .swept _ order scanned => sweepSteps order scanned
  | _ => 0

def evictSteps (cap : Nat) (s : Shard) : Nat := 4 * (s.evictIfNeeded cap).evicted

def rank (cap : Nat) (b : Body) (s : Shard) : Nat :=
  match b with
  | .dating _ _ _ => evictSteps cap s + 5
  | .looking _ => evictSteps cap s + 4
  | .writing _ _ => 3
  | .redating _ _ => 2
  | .evicting _ => evictSteps cap s + 3
  | .dropping _ node =>
      evictSteps cap { s with data := s.data.erase node.key, lruOrder := s.lruOrder.dropLast } + 6
  | .popping _ => evictSteps cap { s with lruOrder := s.lruOrder.dropLast } + 5
  | .tallying _ => evictSteps cap s + 4
  | .linking _ => 2
  | .storing _ _ => 1
  | .finding _ _ => 6
  | .checking _ _ _ => 5
  | .acting _ _ _ => 4
  | .splicing _ _ => 1
  | .unlinking why _ _ => removalSteps why + 3
  | .erasing why _ => removalSteps why + 2
  | .counting why => removalSteps why + 1
  | .timing order => sweepSteps order 0 + 1
  | .sweeping _ order scanned => sweepSteps order scanned
  | .measuring => 1
  | .finished _ => 0

theorem evictSteps_full {cap : Nat} {s : Shard} {node : Node} (hfull : ¬ s.size < cap)
    (hn : s.lruOrder.getLast? = some node) :
    evictSteps cap s = evictSteps cap { s with
      data := s.data.erase node.key, lruOrder := s.lruOrder.dropLast } + 4 := by
  have hin := congrArg Outcome.evicted (Shard.inserted_full (w := ⟨[],[],none⟩) hfull hn)
  simp only [Shard.inserted, Outcome.plus] at hin
  simp only [evictSteps, hin]
  omega

theorem sweepSteps_cons (key : Str) (order : List Str) {scanned : Nat}
    (h : scanned < Shard.maxScanPerSweep) :
    sweepSteps (key :: order) scanned = sweepSteps order (scanned + 1) + 4 := by
  simp only [sweepSteps, List.length_cons]
  omega

theorem rank_step {b : Body} (cap : Nat) (x : Int) (s : Shard) (h : ∀ reply, b ≠ .finished reply) :
    (b.step cap x s).1.rank cap (b.step cap x s).2.1 < b.rank cap s := by
  cases b with
  | looking w =>
    simp only [step]
    cases s.data.lookup w.key <;> simp only [rank] <;> omega
  | evicting w =>
    by_cases hroom : s.size < cap
    · simp [step, hroom, rank]
    · cases hn : s.lruOrder.getLast? with
      | none => simp [step, hroom, hn, rank]
      | some node => simp [step, hroom, hn, rank, evictSteps_full hroom hn]
  | finding probe key =>
    simp only [step]
    cases s.data.lookup key <;> simp [rank]
  | checking probe key entry =>
    simp only [step]
    split <;> simp [rank, removalSteps]
  | acting probe key entry =>
    cases probe with
    | ttl =>
      simp only [step]
      cases entry.expiresAt <;> simp [rank]
    | _ => simp [step, rank, removalSteps]
  | erasing why key =>
    cases why <;> simp [step, rank, Removal.counted, Removal.resume, removalSteps]
  | counting why => cases why <;> simp [step, rank, Removal.resume, removalSteps]
  | sweeping start order scanned =>
    cases order with
    | nil => simp [step, rank, sweepSteps]
    | cons key order =>
      by_cases hmore : scanned < Shard.maxScanPerSweep
      · have hs := sweepSteps_cons key order hmore
        simp only [step, if_pos hmore]
        cases s.data.lookup key with
        | none => simp only [rank, hs]; omega
        | some entry =>
          dsimp only
          split <;> simp only [rank, removalSteps, hs] <;> omega
      · simp [step, hmore, rank, sweepSteps]
  | finished reply => exact absurd rfl (h reply)
  | _ => simp [step, rank]

theorem rank_entered {hash : Str → Nat} {cap : Nat} {op : Operation} {i : Fin numShards}
    {b : Body} {s : Shard} (h : op.enter hash = .inr (i, b)) (hs : s.WellFormed hash i cap) :
    b.rank cap s ≤ 402 := by
  have honce := hs.evictsOnce
  cases op with
  | setWithTTL key value seconds =>
    simp only [Operation.enter, Sum.inr.injEq, Prod.mk.injEq] at h
    obtain ⟨-,rfl⟩ := h
    split <;> simp only [rank, evictSteps] <;> omega
  | expire key seconds =>
    simp only [Operation.enter] at h
    split at h
    · cases h
    · cases h
      simp [rank]
  | sweepShard j order =>
    cases h
    have hmin : min order.length Shard.maxScanPerSweep ≤ 100 := Nat.min_le_right ..
    simp only [rank, sweepSteps, Nat.sub_zero]
    omega
  | _ =>
    cases h
    simp only [rank, evictSteps]
    omega

end Body

namespace Invocation

def cost : Invocation → Nat
  | .entering _ => 405
  | .sizing rest _ => 3 * rest.length + 1
  | .finished _ => 1

def costAfter : Invocation → Nat
  | .sizing (_ :: rest) _ => 3 * rest.length + 1
  | _ => 1

end Invocation

def storageBudget (hash : Str → Nat) (cap : Nat) :
    (criticalSections hash cap).Budget (fun i s => s.WellFormed hash i cap) where
  rank := Body.rank cap
  after := Invocation.costAfter
  cost := Invocation.cost
  work := by
    intro k b x s hmore
    refine Body.rank_step cap x s fun reply hb => ?_
    subst hb
    cases hmore
  enter := by
    intro k i b s hnext hs
    cases k with
    | entering op =>
      have hr := Body.rank_entered hnext hs
      simp only [Invocation.cost, Invocation.costAfter]
      omega
    | sizing rest total =>
      cases rest with
      | nil => cases hnext
      | cons j rest =>
        cases hnext
        simp only [Body.rank, Invocation.cost, Invocation.costAfter, List.length_cons]
        omega
    | finished reply => cases hnext
  leave := by
    intro k b k' hdone
    obtain ⟨reply,rfl,rfl⟩ := Invocation.resume_some hdone
    cases k with
    | sizing rest total =>
      cases rest with
      | nil => simp [Invocation.leave, Invocation.cost, Invocation.costAfter]
      | cons j rest => cases reply <;> simp [Invocation.leave, Invocation.cost, Invocation.costAfter]
    | _ => simp [Invocation.leave, Invocation.cost, Invocation.costAfter]
  answer := by
    intro k reply _
    cases k <;> simp [Invocation.cost]

theorem locked_calls_progress (hash : Str → Nat) (maxKeys : Nat) (clock : Int) (threads : Nat)
    {es : List (Sections.Event Demand Int)} {s : LockedStorage} {os : List StorageNotice}
    (h : (lockedStorage hash maxKeys).Run Machine.anyStep (.create clock threads) es s os) :
    ((∃ th ∈ s.threads, th ≠ .idle) → ∃ e : Sections.Event Demand Int, e.isProgress ∧
      ((lockedStorage hash maxKeys).step s e).isSome) ∧
      es.countP Sections.Event.isProgress ≤ 405 * es.countP Sections.Event.isCall := by
  refine ⟨?_,?_⟩
  · rintro ⟨th,hth,hbusy⟩
    obtain ⟨t,ht⟩ := List.getElem?_of_mem hth
    obtain ⟨_,a,_,debts,href⟩ := Sections.locked_refines_atomic h
    exact href.exists_progress ht hbusy
  · have hbound := (storageBudget hash (max 1 (maxKeys / numShards))).run_progress (N := 405)
      (fun _ _ _ hrun => sectioned_well_formed hrun) (fun demand => ?_) h
    · omega
    · cases demand <;> simp [storageBudget, criticalSections, Demand.start, Invocation.cost,
        numShards]

theorem set_then_get_progresses :
    ∃ s os, (lockedStorage (fun _ => 0) 16).Run Machine.anyStep (.create 0 2)
        (setThenGet.take 7) s os ∧
      (((∃ th ∈ s.threads, th ≠ .idle) → ∃ e : Sections.Event Demand Int, e.isProgress ∧
        ((lockedStorage (fun _ => 0) 16).step s e).isSome) ∧
        (setThenGet.take 7).countP Sections.Event.isProgress ≤
          405 * (setThenGet.take 7).countP Sections.Event.isCall) ∧
      ∃ th ∈ s.threads, th ≠ .idle :=
  ⟨_,_,Machine.run_of_exec (by decide +kernel),
    locked_calls_progress _ 16 0 2 (Machine.run_of_exec (by decide +kernel)),by decide +kernel⟩

namespace ShardedStorage

variable {hash : Str → Nat}

def unvisited (rest : List (Fin numShards)) (st : ShardedStorage) : Nat :=
  (rest.map fun i => (st.shards i).size).sum

theorem unvisited_locked {R : Type} (i : Fin numShards) (op : Shard → Outcome R)
    (st : ShardedStorage) {rest : List (Fin numShards)} (h : rest.Nodup) :
    if i ∈ rest then
      (st.locked i op).2.unvisited rest + (st.shards i).size =
        st.unvisited rest + (op (st.shards i)).shard.size
    else (st.locked i op).2.unvisited rest = st.unvisited rest := by
  induction rest with
  | nil => rfl
  | cons j rest ih =>
    obtain ⟨hj,hrest⟩ := List.nodup_cons.mp h
    have hr := ih hrest
    simp only [unvisited, List.map_cons, List.sum_cons, List.mem_cons, locked_shards] at hr ⊢
    by_cases hij : j = i
    · subst hij
      rw [if_neg hj] at hr
      simp only [true_or, if_true, hr]
      omega
    · have hmem : (i = j ∨ i ∈ rest) ↔ i ∈ rest := by simp [Ne.symm hij]
      simp only [hmem, if_neg hij]
      split at hr
      · rw [if_pos ‹_›]
        omega
      · rw [if_neg ‹_›, hr]

theorem unvisited_call {st : ShardedStorage} {ref : Reference} (h : Simulates hash st ref)
    {rest : List (Fin numShards)} (hrest : rest.Nodup) (op : Operation) (now later : Int) :
    let r := st.call hash (op.call now later)
    r.2.unvisited rest ≤ st.unvisited rest + (st.creates hash (op.call now later)).toNat ∧
      st.unvisited rest + st.expiredKeys + st.evictedKeys ≤ r.2.unvisited rest +
        ((op.call now later).deletes r.1).toNat + r.2.expiredKeys + r.2.evictedKeys := by
  intro r
  have hacc := call_accounted h (op.call now later)
  cases henter : op.enter hash with
  | inl reply =>
    rw [show r = (reply, st) from call_declined henter now later st]
    dsimp only
    omega
  | inr p =>
    obtain ⟨i,b⟩ := p
    have hr : r = st.locked i _ := call_entered henter now later st
    have hsize := locked_size i (fun s => b.outcome st.maxKeysPerShard now later s) st
    have hun := unvisited_locked i (fun s => b.outcome st.maxKeysPerShard now later s) st hrest
    rw [show st.call hash (op.call now later) = r from rfl] at hacc
    rw [← hr] at hsize hun
    simp only [accounted] at hacc
    have hexp : st.expiredKeys ≤ r.2.expiredKeys := hr ▸ Nat.le_add_right ..
    have hev : st.evictedKeys ≤ r.2.evictedKeys := hr ▸ Nat.le_add_right ..
    split at hun <;> omega

end ShardedStorage

abbrev notReturning (t : Nat) (_ : SharedStorage) (e : SharedEvent) : Prop := e ≠ .ret t

structure Counting (hash : Str → Nat) (t : Nat) (st : ShardedStorage) (cs : List Call)
    (rest : List (Fin numShards)) (total : Nat) (c : SharedStorage) : Prop where
  thread : ∃ since, c.threads[t]? = some (some (.sizing rest total, since))
  nodup : rest.Nodup
  storage : c.storage = (Transducer.run (ShardedStorage.audit hash) cs st).2
  upper : total + c.storage.unvisited rest ≤
    st.size + (Transducer.run (ShardedStorage.audit hash) cs st).1.countP Audit.created
  lower : st.size + st.expiredKeys + st.evictedKeys ≤ total + c.storage.unvisited rest +
    (Transducer.run (ShardedStorage.audit hash) cs st).1.countP Audit.deleted +
      c.storage.expiredKeys + c.storage.evictedKeys

theorem Counting.simulates {hash : Str → Nat} {t total : Nat} {st : ShardedStorage}
    {ref : Reference} {cs : List Call} {rest : List (Fin numShards)} {c : SharedStorage}
    (hsim : Simulates hash st ref) (h : Counting hash t st cs rest total c) :
    ∃ ref', Simulates hash c.storage ref' := by
  rw [h.storage, Transducer.run_state (f := ShardedStorage.audit hash)
    (g := ShardedStorage.call hash) (fun _ _ => rfl)]
  exact ⟨_,(hsim.calls cs).2⟩

theorem audits_snoc (hash : Str → Nat) (p : Audit → Bool) (cs : List Call) (x : Call)
    (st : ShardedStorage) :
    (Transducer.run (ShardedStorage.audit hash) (cs ++ [x]) st).1.countP p =
      (Transducer.run (ShardedStorage.audit hash) cs st).1.countP p +
        (p (ShardedStorage.audit hash
          (Transducer.run (ShardedStorage.audit hash) cs st).2 x).1).toNat := by
  rw [Transducer.run_snoc, List.countP_append, List.countP_singleton]
  cases p _ <;> rfl

theorem Counting.step {hash : Str → Nat} {t total : Nat} {st : ShardedStorage} {ref : Reference}
    {cs : List Call} {rest : List (Fin numShards)} {c c' : SharedStorage} {e : SharedEvent}
    {os : List StorageNotice} (hsim : Simulates hash st ref)
    (h : Counting hash t st cs rest total c) (he : e ≠ .ret t)
    (hstep : (sharedStorage hash).step c e = some (c', os)) :
    ∃ cs' rest' total', Counting hash t st cs' rest' total' c' := by
  obtain ⟨since,ht⟩ := h.thread
  cases shared_cases hstep with
  | tick => exact ⟨cs,rest,total,h.thread,h.nodup,h.storage,h.upper,h.lower⟩
  | @call u demand hu =>
    have hut : u ≠ t := by
      rintro rfl
      rw [ht] at hu
      cases hu
    refine ⟨cs,rest,total,⟨since,?_⟩,h.nodup,h.storage,h.upper,h.lower⟩
    rw [List.getElem?_set_ne hut, ht]
  | @perform u now later since' op hu =>
    have hut : u ≠ t := by
      rintro rfl
      rw [ht] at hu
      cases hu
    obtain ⟨ref',hc⟩ := h.simulates hsim
    obtain ⟨hup,hlow⟩ := ShardedStorage.unvisited_call hc h.nodup op now later
    have hu := h.upper
    have hl := h.lower
    refine ⟨cs ++ [op.call now later],rest,total,⟨since,?_⟩,h.nodup,?_,?_,?_⟩
    · rw [List.getElem?_set_ne hut, ht]
    · rw [Transducer.run_snoc, ← h.storage]
      rfl
    · rw [audits_snoc, ← h.storage]
      simp only [ShardedStorage.audit]
      omega
    · rw [audits_snoc, ← h.storage]
      simp only [ShardedStorage.audit]
      omega
  | @visit u i rest' total' since' hu =>
    by_cases hut : u = t
    · subst hut
      rw [ht] at hu
      cases hu
      have hu := h.upper
      have hl := h.lower
      simp only [ShardedStorage.unvisited, List.map_cons, List.sum_cons] at hu hl
      refine ⟨cs,rest',total + (c.storage.shards i).size,⟨since,?_⟩,(List.nodup_cons.mp h.nodup).2,
        h.storage,?_,?_⟩
      · exact List.getElem?_set_self (List.getElem?_eq_some_iff.mp ht).1
      · simp only [ShardedStorage.unvisited]
        omega
      · simp only [ShardedStorage.unvisited]
        omega
    · refine ⟨cs,rest,total,⟨since,?_⟩,h.nodup,h.storage,h.upper,h.lower⟩
      rw [List.getElem?_set_ne hut, ht]
  | @ret u k since' hu =>
    have hut : u ≠ t := fun hut => he (by rw [hut])
    refine ⟨cs,rest,total,⟨since,?_⟩,h.nodup,h.storage,h.upper,h.lower⟩
    rw [List.getElem?_set_ne hut, ht]

theorem size_counts_between {hash : Str → Nat} {maxKeys threads t total : Nat}
    {clock since since' : Int} {a b : SharedStorage} {es es' : List SharedEvent}
    {os os' : List StorageNotice}
    (hreach : (sharedStorage hash).Run Machine.anyStep (.create maxKeys clock threads) es a os)
    (hcalled : a.threads[t]? = some (some (Demand.start .size, since)))
    (h : (sharedStorage hash).Run (notReturning t) a es' b os')
    (hcounted : b.threads[t]? = some (some (.sizing [] total, since'))) :
    ∃ cs, let audits := Transducer.run (ShardedStorage.audit hash) cs a.storage
      b.storage = audits.2 ∧
      total ≤ a.storage.size + audits.1.countP Audit.created ∧
      a.storage.size + a.storage.expiredKeys + a.storage.evictedKeys ≤
        total + audits.1.countP Audit.deleted + b.storage.expiredKeys + b.storage.evictedKeys := by
  obtain ⟨ds,hds⟩ := shared_calls hreach
  have hsim := ((Simulates.create hash maxKeys).calls ds).2
  rw [show ShardedStorage.create maxKeys = (SharedStorage.create maxKeys clock threads).storage
    from rfl, ← hds] at hsim
  have hall : a.storage.unvisited (List.finRange numShards) = a.storage.size := rfl
  have hstart : Counting hash t a.storage [] (List.finRange numShards) 0 a :=
    ⟨⟨since,hcalled⟩,List.nodup_finRange _,rfl,by simp [hall, Transducer.run],
      by simp [hall, Transducer.run]⟩
  obtain ⟨cs,rest,total',hc⟩ := h.invariant
    (fun c _ => ∃ cs rest total', Counting hash t a.storage cs rest total' c)
    ⟨_,_,_,hstart⟩ (by
      rintro _ _ _ _ _ ⟨_,_,_,hc⟩ he hstep
      exact hc.step hsim he hstep)
  obtain ⟨since'',hthread⟩ := hc.thread
  rw [hcounted] at hthread
  cases hthread
  exact ⟨cs,hc.storage,hc.upper,hc.lower⟩

def sizeCalled : List SharedEvent :=
  [.call 1 (.run (.set ['a'] ['1'])), .perform 1 0 0, .ret 1, .call 0 .size]

def sizeOvertaken : List SharedEvent :=
  List.replicate 1 (.visit 0) ++ [.call 1 (.run (.del ['a'])), .perform 1 0 0] ++
    List.replicate 15 (.visit 0)

theorem size_counts_deleted_key :
    ∃ a os b os', (sharedStorage (fun _ => 0)).Run Machine.anyStep (.create 16 0 2) sizeCalled
        a os ∧ (sharedStorage (fun _ => 0)).Run (notReturning 0) a sizeOvertaken b os' ∧
      (∃ cs, let audits := Transducer.run (ShardedStorage.audit (fun _ => 0)) cs a.storage;
        b.storage = audits.2 ∧
        1 ≤ a.storage.size + audits.1.countP Audit.created ∧
        a.storage.size + a.storage.expiredKeys + a.storage.evictedKeys ≤
          1 + audits.1.countP Audit.deleted + b.storage.expiredKeys + b.storage.evictedKeys) ∧
      b.threads[0]? = some (some (.sizing [] 1, 0)) ∧ b.storage.size = 0 :=
  ⟨_,_,_,_,Machine.run_of_exec (by decide +kernel),Machine.run_of_exec (by decide +kernel),
    size_counts_between (Machine.run_of_exec (by decide +kernel))
      (show _ = some (some (Demand.start .size, (0 : Int))) by decide +kernel)
      (Machine.run_of_exec (by decide +kernel))
      (show _ = some (some (Invocation.sizing [] 1, (0 : Int))) by decide +kernel),
    by decide +kernel,by decide +kernel⟩

end CacheForge
