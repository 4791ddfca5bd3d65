import CacheForge.Library.Sections
import CacheForge.Storage.Calls

namespace CacheForge

structure Write where
  key : Str
  value : Str
  expiresAt : Option Int
  deriving DecidableEq, Repr

inductive Probe where
  | get
  | del
  | expire (seconds : Int)
  | ttl
  deriving DecidableEq, Repr

inductive Removal where
  | deleted
  | lapsed (reply : Reply)
  | swept (now : Int) (order : List Str) (scanned : Nat)
  deriving DecidableEq, Repr

inductive Body where
  | dating (key value : Str) (seconds : Int)
  | looking (w : Write)
  | writing (w : Write) (entry : Entry)
  | redating (w : Write) (entry : Entry)
  | evicting (w : Write)
  | dropping (w : Write) (node : Node)
  | popping (w : Write)
  | tallying (w : Write)
  | linking (w : Write)
  | storing (w : Write) (address : Nat)
  | finding (probe : Probe) (key : Str)
  | checking (probe : Probe) (key : Str) (entry : Entry)
  | acting (probe : Probe) (key : Str) (entry : Entry)
  | splicing (address : Nat) (reply : Reply)
  | unlinking (why : Removal) (key : Str) (entry : Entry)
  | erasing (why : Removal) (key : Str)
  | counting (why : Removal)
  | timing (order : List Str)
  | sweeping (now : Int) (order : List Str) (scanned : Nat)
  | measuring
  | finished (reply : Reply)
  deriving DecidableEq, Repr

def Probe.absent : Probe → Reply
  | .get => .value none
  | .del => .flag false
  | .expire _ => .flag false
  | .ttl => .seconds (-2)

def Removal.resume : Removal → Body
  | .deleted => .finished (.flag true)
  | .lapsed reply => .finished reply
  | .swept now order scanned => .sweeping now order scanned

def Removal.counted : Removal → Bool
  | .deleted => false
  | _ => true

def Body.step (maxKeysPerShard : Nat) (b : Body) (now : Int) (s : Shard) :
    Body × Shard × Nat × Nat :=
  match b with
  | .dating key value seconds => (.looking ⟨key, value, some (deadlineAfter now seconds)⟩, s, 0, 0)
  | .looking w =>
      match s.data.lookup w.key with
      | some entry => (.writing w entry, s, 0, 0)
      | none => (.evicting w, s, 0, 0)
  | .writing w entry =>
      let entry' := { entry with value := w.value }
      (.redating w entry', { s with data := s.data.insert w.key entry' }, 0, 0)
  | .redating w entry =>
      (.splicing entry.lruIter .done,
        { s with data := s.data.insert w.key { entry with expiresAt := w.expiresAt } }, 0, 0)
  | .evicting w =>
      if s.size < maxKeysPerShard then (.linking w, s, 0, 0)
      else match s.lruOrder.getLast? with
        | none => (.linking w, s, 0, 0)
        | some node => (.dropping w node, s, 0, 0)
  | .dropping w node => (.popping w, { s with data := s.data.erase node.key }, 0, 0)
  | .popping w => (.tallying w, { s with lruOrder := s.lruOrder.dropLast }, 0, 0)
  | .tallying w => (.evicting w, s, 0, 1)
  | .linking w =>
      (.storing w s.nextAddress,
        { s with
          lruOrder := ⟨s.nextAddress, w.key⟩ :: s.lruOrder
          nextAddress := s.nextAddress + 1 }, 0, 0)
  | .storing w address =>
      (.finished .done, { s with data := s.data.insert w.key ⟨w.value, w.expiresAt, address⟩ }, 0, 0)
  | .finding probe key =>
      match s.data.lookup key with
      | none => (.finished probe.absent, s, 0, 0)
      | some entry => (.checking probe key entry, s, 0, 0)
  | .checking probe key entry =>
      if isExpired now entry then (.unlinking (.lapsed probe.absent) key entry, s, 0, 0)
      else (.acting probe key entry, s, 0, 0)
  | .acting .get _ entry => (.splicing entry.lruIter (.value (some entry.value)), s, 0, 0)
  | .acting .del key entry => (.unlinking .deleted key entry, s, 0, 0)
  | .acting (.expire seconds) key entry =>
      (.finished (.flag true),
        { s with data :=
            s.data.insert key { entry with expiresAt := some (deadlineAfter now seconds) } }, 0, 0)
  | .acting .ttl _ entry =>
      match entry.expiresAt with
      | none => (.finished (.seconds (-1)), s, 0, 0)
      | some deadline => (.finished (.seconds (Shard.remaining now deadline)), s, 0, 0)
  | .splicing address reply =>
      (.finished reply, { s with lruOrder := spliceFront address s.lruOrder }, 0, 0)
  | .unlinking why key entry =>
      (.erasing why key, { s with lruOrder := eraseNode entry.lruIter s.lruOrder }, 0, 0)
  | .erasing why key =>
      (if why.counted then .counting why else why.resume,
        { s with data := s.data.erase key }, 0, 0)
  | .counting why => (why.resume, s, 1, 0)
  | .timing order => (.sweeping now order 0, s, 0, 0)
  | .sweeping _ [] _ => (.finished .done, s, 0, 0)
  | .sweeping start (key :: order) scanned =>
      if scanned < Shard.maxScanPerSweep then
        match s.data.lookup key with
        | none => (.sweeping start order (scanned + 1), s, 0, 0)
        | some entry =>
            if isExpired start entry then
              (.unlinking (.swept start order (scanned + 1)) key entry, s, 0, 0)
            else (.sweeping start order (scanned + 1), s, 0, 0)
      else (.finished .done, s, 0, 0)
  | .measuring => (.finished (.count s.size), s, 0, 0)
  | .finished reply => (.finished reply, s, 0, 0)

inductive Operation where
  | set (key value : Str)
  | setWithTTL (key value : Str) (seconds : Int)
  | get (key : Str)
  | del (key : Str)
  | expire (key : Str) (seconds : Int)
  | ttl (key : Str)
  | sweepShard (shard : Fin numShards) (order : List Str)
  deriving DecidableEq, Repr

inductive Demand where
  | run (op : Operation)
  | size
  deriving DecidableEq, Repr

inductive Invocation where
  | entering (op : Operation)
  | sizing (rest : List (Fin numShards)) (total : Nat)
  | finished (reply : Reply)
  deriving DecidableEq, Repr

def Demand.start : Demand → Invocation
  | .run op => .entering op
  | .size => .sizing (List.finRange numShards) 0

def Operation.enter (hash : Str → Nat) : Operation → Reply ⊕ Fin numShards × Body
  | .set key value => .inr (shardIndex hash key, .looking ⟨key, value, none⟩)
  | .setWithTTL key value seconds =>
      .inr (shardIndex hash key,
        if seconds < 0 then .looking ⟨key, value, none⟩ else .dating key value seconds)
  | .get key => .inr (shardIndex hash key, .finding .get key)
  | .del key => .inr (shardIndex hash key, .finding .del key)
  | .expire key seconds =>
      if seconds < 0 then .inl (.flag false)
      else .inr (shardIndex hash key, .finding (.expire seconds) key)
  | .ttl key => .inr (shardIndex hash key, .finding .ttl key)
  | .sweepShard i order => .inr (i, .timing order)

def Invocation.next (hash : Str → Nat) : Invocation → Reply ⊕ Fin numShards × Body
  | .entering op => op.enter hash
  | .sizing [] total => .inl (.count total)
  | .sizing (i :: _) _ => .inr (i, .measuring)
  | .finished reply => .inl reply

def Invocation.leave : Invocation → Reply → Invocation
  | .sizing (_ :: rest) total, .count n => .sizing rest (total + n)
  | _, reply => .finished reply

def Invocation.resume (k : Invocation) : Body → Option Invocation
  | .finished reply => some (k.leave reply)
  | _ => none

def criticalSections (hash : Str → Nat) (maxKeysPerShard : Nat) :
    Sections Demand Invocation (Fin numShards) Body Int Shard (Nat × Nat) Reply :=
  ⟨Demand.start, Invocation.next hash, Body.step maxKeysPerShard, Invocation.resume⟩

def Outcome.answer {R : Type} (f : R → Reply) (o : Outcome R) : Outcome Reply :=
  ⟨f o.result, o.shard, o.expired, o.evicted⟩

def Outcome.plus {R : Type} (o : Outcome R) (d : Nat × Nat) : Outcome R :=
  { o with expired := d.1 + o.expired, evicted := d.2 + o.evicted }

namespace Shard

def inserted (cap : Nat) (w : Write) (s : Shard) : Outcome Reply :=
  let r := s.evictIfNeeded cap
  ⟨.done, r.shard.pushFront w.key w.value w.expiresAt, r.expired, r.evicted⟩

def sweepRest (start : Int) (order : List Str) (scanned : Nat) (s : Shard) : Outcome Reply :=
  ((order.take (maxScanPerSweep - scanned)).foldl (sweepEntry start) ⟨(), s, 0, 0⟩).answer
    fun _ => .done

end Shard

def Probe.hit (later : Int) (key : Str) (s : Shard) (entry : Entry) : Probe → Outcome Reply
  | .get => (s.moveToFront entry).answer .value
  | .del => (s.erase key entry).answer .flag
  | .expire seconds => (s.setDeadline (deadlineAfter later seconds) key entry).answer .flag
  | .ttl => (s.report later entry).answer .seconds

def Removal.rest (s : Shard) : Removal → Outcome Reply
  | .deleted => ⟨.flag true, s, 0, 0⟩
  | .lapsed reply => ⟨reply, s, 0, 0⟩
  | .swept start order scanned => s.sweepRest start order scanned

def Removal.completed (s : Shard) (why : Removal) : Outcome Reply :=
  (why.rest s).plus (if why.counted then 1 else 0, 0)

def Body.outcome (cap : Nat) (now later : Int) (s : Shard) : Body → Outcome Reply
  | .dating key value seconds =>
      (s.insertOrUpdate cap key value (some (deadlineAfter now seconds))).answer fun _ => .done
  | .looking w => (s.insertOrUpdate cap w.key w.value w.expiresAt).answer fun _ => .done
  | .writing w entry =>
      ⟨.done, { s with data := s.data.insert w.key ⟨w.value, w.expiresAt, entry.lruIter⟩
                       lruOrder := spliceFront entry.lruIter s.lruOrder }, 0, 0⟩
  | .redating w entry =>
      ⟨.done, { s with data := s.data.insert w.key { entry with expiresAt := w.expiresAt }
                       lruOrder := spliceFront entry.lruIter s.lruOrder }, 0, 0⟩
  | .evicting w => s.inserted cap w
  | .dropping w node =>
      (Shard.inserted cap w { s with data := s.data.erase node.key
                                     lruOrder := s.lruOrder.dropLast }).plus (0, 1)
  | .popping w => (Shard.inserted cap w { s with lruOrder := s.lruOrder.dropLast }).plus (0, 1)
  | .tallying w => (s.inserted cap w).plus (0, 1)
  | .linking w => ⟨.done, s.pushFront w.key w.value w.expiresAt, 0, 0⟩
  | .storing w address =>
      ⟨.done, { s with data := s.data.insert w.key ⟨w.value, w.expiresAt, address⟩ }, 0, 0⟩
  | .finding probe key => s.access now key probe.absent (probe.hit later key s)
  | .checking probe key entry =>
      if isExpired now entry then s.removeExpiredEntry probe.absent key entry
      else probe.hit later key s entry
  | .acting probe key entry => probe.hit later key s entry
  | .splicing address reply =>
      ⟨reply, { s with lruOrder := spliceFront address s.lruOrder }, 0, 0⟩
  | .unlinking why key entry => why.completed (s.removeEntry key entry)
  | .erasing why key => why.completed { s with data := s.data.erase key }
  | .counting why => (why.rest s).plus (1, 0)
  | .timing order => (s.sweepShard now order).answer fun _ => .done
  | .sweeping start order scanned => s.sweepRest start order scanned
  | .measuring => ⟨.count s.size, s, 0, 0⟩
  | .finished reply => ⟨reply, s, 0, 0⟩

namespace Shard

theorem sweep_counted (start : Int) (keys : List Str) (s : Shard) (n : Nat) :
    keys.foldl (sweepEntry start) ⟨(), s, n, 0⟩ =
      (keys.foldl (sweepEntry start) ⟨(), s, 0, 0⟩).plus (n, 0) := by
  induction keys generalizing s n with
  | nil => simp [Outcome.plus]
  | cons k keys ih =>
    simp only [List.foldl_cons, sweepEntry]
    cases s.data.lookup k with
    | none => exact ih s n
    | some e =>
      dsimp only
      split
      · rw [ih _ (n + 1), ih _ (0 + 1)]
        simp [Outcome.plus, Nat.add_assoc]
      · exact ih s n

theorem sweepRest_cons {start : Int} {key : Str} {order : List Str} {scanned : Nat} {s : Shard}
    (h : scanned < maxScanPerSweep) :
    s.sweepRest start (key :: order) scanned =
      match s.data.lookup key with
      | none => s.sweepRest start order (scanned + 1)
      | some entry =>
          if isExpired start entry then
            ((s.removeEntry key entry).sweepRest start order (scanned + 1)).plus (1, 0)
          else s.sweepRest start order (scanned + 1) := by
  obtain ⟨m,hm⟩ : ∃ m, maxScanPerSweep - scanned = m + 1 := ⟨maxScanPerSweep - scanned - 1,by omega⟩
  have hrest : maxScanPerSweep - (scanned + 1) = m := by omega
  simp only [sweepRest, hm, hrest, List.take_succ_cons, List.foldl_cons, sweepEntry]
  cases s.data.lookup key with
  | none => rfl
  | some entry =>
    dsimp only
    split
    · rw [sweep_counted]
      rfl
    · rfl

theorem inserted_full {cap : Nat} {w : Write} {s : Shard} {node : Node} (hfull : ¬ s.size < cap)
    (hn : s.lruOrder.getLast? = some node) :
    s.inserted cap w = (inserted cap w { s with data := s.data.erase node.key
                                                lruOrder := s.lruOrder.dropLast }).plus (0, 1) := by
  have hevict : s.evictIfNeeded cap = (evictIfNeeded cap { s with
      data := s.data.erase node.key, lruOrder := s.lruOrder.dropLast }).plus (0, 1) := by
    rw [evictIfNeeded.eq_def, if_neg hfull]
    split
    · rename_i hnone
      rw [hn] at hnone
      cases hnone
    · rename_i node' hsome
      rw [hn] at hsome
      cases hsome
      simp [Outcome.plus, Nat.add_comm]
  rw [inserted, hevict]
  rfl

theorem inserted_room {cap : Nat} {w : Write} {s : Shard}
    (h : s.size < cap ∨ s.lruOrder.getLast? = none) :
    s.inserted cap w = ⟨.done, s.pushFront w.key w.value w.expiresAt, 0, 0⟩ := by
  have hevict : s.evictIfNeeded cap = ⟨(), s, 0, 0⟩ := by
    rw [evictIfNeeded.eq_def]
    split
    · rfl
    · rename_i hfull
      split
      · rfl
      · rename_i node hsome
        rw [h.resolve_left hfull] at hsome
        cases hsome
  rw [inserted, hevict]

end Shard

theorem Outcome.plus_zero {R : Type} (o : Outcome R) : o.plus (0, 0) = o := by simp [plus]

namespace Body

def clocks (x now later : Int) : Body → Int × Int
  | .dating _ _ _ => (x, later)
  | .checking _ _ _ => (x, later)
  | .timing _ => (x, later)
  | .acting _ _ _ => (x, x)
  | _ => (now, later)

theorem evicting_outcome (cap : Nat) (w : Write) (x now later : Int) (s : Shard) :
    s.inserted cap w = ((step cap (.evicting w) x s).1.outcome cap now later
      (step cap (.evicting w) x s).2.1).plus (step cap (.evicting w) x s).2.2 := by
  by_cases hroom : s.size < cap
  · simp only [step, if_pos hroom, outcome, Outcome.plus_zero]
    exact Shard.inserted_room (.inl hroom)
  · cases hn : s.lruOrder.getLast? with
    | none =>
      simp only [step, if_neg hroom, hn, outcome, Outcome.plus_zero]
      exact Shard.inserted_room (.inr hn)
    | some node =>
      simp only [step, if_neg hroom, hn, outcome, Outcome.plus_zero]
      exact Shard.inserted_full hroom hn

theorem acting_outcome (cap : Nat) (probe : Probe) (key : Str) (entry : Entry)
    (x now later : Int) (s : Shard) :
    probe.hit x key s entry = ((step cap (.acting probe key entry) x s).1.outcome cap now later
      (step cap (.acting probe key entry) x s).2.1).plus
        (step cap (.acting probe key entry) x s).2.2 := by
  cases probe with
  | get => rfl
  | del => rfl
  | expire seconds => rfl
  | ttl =>
    simp only [step, Probe.hit, Shard.report]
    cases entry.expiresAt <;> rfl

theorem sweeping_outcome (cap : Nat) (start : Int) (order : List Str) (scanned : Nat)
    (x now later : Int) (s : Shard) :
    s.sweepRest start order scanned = ((step cap (.sweeping start order scanned) x s).1.outcome cap
      now later (step cap (.sweeping start order scanned) x s).2.1).plus
        (step cap (.sweeping start order scanned) x s).2.2 := by
  cases order with
  | nil => simp [step, outcome, Shard.sweepRest, Outcome.plus, Outcome.answer]
  | cons key order =>
    by_cases hmore : scanned < Shard.maxScanPerSweep
    · rw [Shard.sweepRest_cons hmore]
      simp only [step, if_pos hmore]
      cases s.data.lookup key with
      | none => exact (Outcome.plus_zero _).symm
      | some entry =>
        dsimp only
        split
        · exact (Outcome.plus_zero _).symm
        · exact (Outcome.plus_zero _).symm
    · have hzero : Shard.maxScanPerSweep - scanned = 0 := by omega
      simp [step, hmore, outcome, Shard.sweepRest, hzero, Outcome.plus, Outcome.answer]

theorem step_outcome (cap : Nat) (b : Body) (x now later : Int) (s : Shard) :
    b.outcome cap (b.clocks x now later).1 (b.clocks x now later).2 s =
      ((b.step cap x s).1.outcome cap now later (b.step cap x s).2.1).plus (b.step cap x s).2.2 := by
  cases b with
  | dating key value seconds => exact (Outcome.plus_zero _).symm
  | looking w =>
    simp only [step, outcome, Shard.insertOrUpdate]
    cases s.data.lookup w.key <;> simp [Outcome.plus, Outcome.answer, Shard.inserted]
  | writing w entry => simp [step, outcome, Outcome.plus, Finmap.insert_insert]
  | redating w entry => rfl
  | evicting w => exact evicting_outcome cap w x now later s
  | dropping w node => exact (Outcome.plus_zero _).symm
  | popping w => exact (Outcome.plus_zero _).symm
  | tallying w => rfl
  | linking w => rfl
  | storing w address => rfl
  | finding probe key =>
    simp only [step, outcome, clocks, Shard.access]
    cases s.data.lookup key <;> exact (Outcome.plus_zero _).symm
  | checking probe key entry =>
    by_cases hx : isExpired x entry
    · simp [step, outcome, clocks, hx, Shard.removeExpiredEntry, Removal.completed, Removal.rest,
        Removal.counted, Outcome.plus]
    · simp [step, outcome, clocks, hx, Outcome.plus]
  | acting probe key entry => exact acting_outcome cap probe key entry x now later s
  | splicing address reply => rfl
  | unlinking why key entry => exact (Outcome.plus_zero _).symm
  | erasing why key => cases why <;> exact (Outcome.plus_zero _).symm
  | counting why => cases why <;> rfl
  | timing order => exact (Outcome.plus_zero _).symm
  | sweeping start order scanned => exact sweeping_outcome cap start order scanned x now later s
  | measuring => rfl
  | finished reply => rfl

theorem section_outcome {hash : Str → Nat} {cap : Nat} {k : Invocation} {xs : List Int}
    {b : Body} {s s' : Shard} {reply : Reply} {d : Nat × Nat} {since clock : Int}
    (h : (criticalSections hash cap).execute k xs b s = some (.finished reply, s', d))
    (htime : Sections.Timely since xs clock) :
    ∃ now later, since ≤ now ∧ now ≤ later ∧ later ≤ clock ∧
      b.outcome cap now later s = ⟨reply, s', d.1, d.2⟩ := by
  induction xs generalizing b s d since with
  | nil =>
    cases h
    exact ⟨since,since,le_rfl,le_rfl,htime.since_le,rfl⟩
  | cons x xs ih =>
    obtain ⟨hx,hrest⟩ := htime.tail
    simp only [Sections.execute] at h
    split at h
    · cases h
    · obtain ⟨⟨b',r,e⟩,hexec,heq⟩ := Option.map_eq_some_iff.mp h
      cases heq
      obtain ⟨now,later,hnow,hle,hlater,hout⟩ := ih hexec hrest
      have hstep := step_outcome cap b x now later s
      rw [show b.step cap x s = (criticalSections hash cap).step b x s from rfl, hout] at hstep
      refine ⟨_,_,?_,?_,?_,hstep⟩ <;> unfold clocks <;> split <;> dsimp only <;> omega

end Body

theorem Shard.access_answer {R : Type} (f : R → Reply) (now : Int) (key : Str) (absent : R)
    (hit : Entry → Outcome R) (s : Shard) :
    (s.access now key absent hit).answer f =
      s.access now key (f absent) (fun entry => (hit entry).answer f) := by
  unfold access
  cases s.data.lookup key with
  | none => rfl
  | some entry =>
    dsimp only
    split <;> rfl

def Operation.call (now later : Int) : Operation → Call
  | .set key value => .set key value
  | .setWithTTL key value seconds => .setWithTTL now key value seconds
  | .get key => .get now key
  | .del key => .del now key
  | .expire key seconds => .expire now later key seconds
  | .ttl key => .ttl now later key
  | .sweepShard i order => .sweepShard now i order

namespace ShardedStorage

variable {hash : Str → Nat}

theorem call_declined {op : Operation} {reply : Reply} (h : op.enter hash = .inl reply)
    (now later : Int) (st : ShardedStorage) :
    st.call hash (op.call now later) = (reply, st) := by
  cases op with
  | expire key seconds =>
    simp only [Operation.enter] at h
    split at h
    · rename_i hs
      cases h
      simp [Operation.call, call, ShardedStorage.expire, hs]
    · cases h
  | _ => cases h

theorem call_entered {op : Operation} {i : Fin numShards} {b : Body}
    (h : op.enter hash = .inr (i, b)) (now later : Int) (st : ShardedStorage) :
    st.call hash (op.call now later) =
      st.locked i fun s => b.outcome st.maxKeysPerShard now later s := by
  have hprobe {R : Type} (f : R → Reply) (key : Str) (absent : R) (probe : Probe)
      (hit : Shard → Entry → Outcome R) (habsent : probe.absent = f absent)
      (hhit : ∀ s e, probe.hit later key s e = (hit s e).answer f) :
      (st.onShard hash key fun s => s.access now key absent (hit s)).map f id =
        st.locked (shardIndex hash key)
          fun s => (Body.finding probe key).outcome st.maxKeysPerShard now later s := by
    have hop : (fun s : Shard => (Body.finding probe key).outcome st.maxKeysPerShard now later s) =
        fun s => (s.access now key absent (hit s)).answer f := by
      funext s
      simp only [Body.outcome, Shard.access_answer, habsent, ← hhit]
    rw [hop]
    rfl
  cases op with
  | set key value =>
    cases h
    rfl
  | setWithTTL key value seconds =>
    simp only [Operation.enter, Sum.inr.injEq, Prod.mk.injEq] at h
    obtain ⟨rfl,rfl⟩ := h
    by_cases hs : seconds < 0
    · simp only [Operation.call, call, setWithTTL, if_pos hs]
      rfl
    · simp only [Operation.call, call, setWithTTL, if_neg hs]
      rfl
  | get key =>
    cases h
    exact hprobe .value key none .get (fun s => s.moveToFront) rfl fun _ _ => rfl
  | del key =>
    cases h
    exact hprobe .flag key false .del (fun s => s.erase key) rfl fun _ _ => rfl
  | expire key seconds =>
    simp only [Operation.enter] at h
    split at h
    · cases h
    · rename_i hs
      cases h
      simp only [Operation.call, call, ShardedStorage.expire, if_neg hs]
      exact hprobe .flag key false (.expire seconds)
        (fun s => s.setDeadline (deadlineAfter later seconds) key) rfl fun _ _ => rfl
  | ttl key =>
    cases h
    exact hprobe .seconds key (-2) .ttl (fun s => s.report later) rfl fun _ _ => rfl
  | sweepShard i order =>
    cases h
    rfl

end ShardedStorage

end CacheForge
