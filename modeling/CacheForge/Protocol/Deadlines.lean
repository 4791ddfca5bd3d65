import CacheForge.Protocol.Dispatcher
import CacheForge.Protocol.Parser
import CacheForge.Storage.Answers

namespace CacheForge

theorem wrap64_le (x : Int) : wrap64 x ≤ int64Max := by
  have h := Int.bmod_lt (x := x) (m := 18446744073709551616) (by decide)
  simp only [wrap64, int64Max]
  omega

theorem deadlineAfter_exact_iff {now seconds : Int} (hn : 0 ≤ now) (hs : 0 ≤ seconds) :
    deadlineAfter now seconds = now + seconds * 1000000000 ↔
      now + seconds * 1000000000 ≤ int64Max := by
  constructor
  · intro h
    rw [← h]
    exact wrap64_le _
  · intro h
    refine deadlineAfter_fits ⟨?_,?_⟩ ⟨?_,h⟩ <;> simp only [int64Min, int64Max] at h ⊢ <;> omega

theorem deadlineAfter_mono {now fewer seconds : Int} (hn : 0 ≤ now) (hf : 0 ≤ fewer)
    (hle : fewer ≤ seconds) (h : now + seconds * 1000000000 ≤ int64Max) :
    deadlineAfter now fewer ≤ deadlineAfter now seconds := by
  rw [(deadlineAfter_exact_iff hn (hf.trans hle)).mpr h,
    (deadlineAfter_exact_iff hn hf).mpr (by omega)]
  omega

theorem integerResponse_head (n : Int) : (integerResponse n).head? = some ':' := rfl

theorem errorResponse_head (message : String) : (errorResponse message).head? = some '-' := rfl

theorem live_until {t deadline : Int} (v : Str) (h : t < deadline) :
    live t (some (v, some deadline)) = some (v, some deadline) :=
  live_some (by simp [itemExpired, h])

section

variable (hash : Str → Nat)

theorem setWithTTL_lookup (now : Int) (k v : Str) {seconds : Int} (hs : 0 ≤ seconds)
    (st : ShardedStorage) :
    (st.setWithTTL hash now k v seconds).lookup hash k =
      some (v, some (deadlineAfter now seconds)) := by
  rw [ShardedStorage.lookup, ShardedStorage.setWithTTL, ShardedStorage.onShard,
    ShardedStorage.locked_shards, if_pos rfl, (Shard.insertOrUpdate_spec _ _ _ _ _).1,
    if_neg (not_lt.mpr hs)]

theorem expire_lookup (r : Readings) (k : Str) {seconds : Int} (hs : 0 ≤ seconds)
    (st : ShardedStorage) :
    (st.expire hash r.now r.later k seconds).2.lookup hash k =
      (live r.now (st.lookup hash k)).map
        (fun i => (i.1, some (deadlineAfter r.later seconds))) := by
  rw [ShardedStorage.expire, if_neg (not_lt.mpr hs),
    ShardedStorage.onShard_lookup hash st k (Shard.expire_spec ..).2.2, if_pos rfl]
  rfl

theorem dispatch_expire (r : Readings) {k number : Str} (rest : List Str) {seconds : Int}
    (d : Dispatcher) (hnum : stoll number = some seconds) :
    let o := d.storage.expire hash r.now r.later k seconds
    (d.dispatch hash r ⟨.expire, k :: number :: rest⟩).1 = integerResponse (if o.1 then 1 else 0) ∧
      (d.dispatch hash r ⟨.expire, k :: number :: rest⟩).2.storage = o.2 := by
  simp only [Dispatcher.dispatch, Dispatcher.dispatchExpire, hnum, true_and]
  split <;> rfl

theorem deadline_exact_iff (d : Dispatcher) (r : Readings) (k number : Str) (rest : List Str)
    (seconds : Int) (i : Item) (hnow : 0 ≤ r.later) (hnum : stoll number = some seconds)
    (hs : 0 ≤ seconds) (hlive : live r.now (d.storage.lookup hash k) = some i) :
    let expired := d.dispatch hash r ⟨.expire, k :: number :: rest⟩
    let due := r.later + seconds * 1000000000
    expired.1 = ":1\n".toList ∧
    (expired.2.storage.lookup hash k = some (i.1, some due) ↔ due ≤ int64Max) ∧
    (∀ (st : ShardedStorage) (v : Str), (st.setWithTTL hash r.later k v seconds).lookup hash k =
      some (v, some due) ↔ due ≤ int64Max) ∧
    (due ≤ int64Max →
      (1 ≤ seconds → ∀ t < r.later + 1000000000,
        live t (expired.2.storage.lookup hash k) = some (i.1, some due)) ∧
      ∀ fewer, 0 ≤ fewer → fewer ≤ seconds →
        deadlineAfter r.later fewer ≤ deadlineAfter r.later seconds) := by
  intro expired due
  obtain ⟨hreply,hstorage⟩ := dispatch_expire hash r rest d (k := k) hnum
  have hexact := deadlineAfter_exact_iff hnow hs
  have hlookup : expired.2.storage.lookup hash k =
      some (i.1, some (deadlineAfter r.later seconds)) := by
    rw [hstorage, expire_lookup hash r k hs, hlive]
    rfl
  refine ⟨?_,?_,fun st v => ?_,fun hdue => ⟨fun hone t ht => ?_,fun fewer hf hle => ?_⟩⟩
  · have hone : integerResponse 1 = ":1\n".toList := by decide
    refine hreply.trans ?_
    rw [ShardedStorage.expire_result hash r.now r.later k d.storage hs, hlive, Option.isSome_some,
      if_pos rfl, hone]
  · rw [hlookup]
    simpa using hexact
  · rw [setWithTTL_lookup hash r.later k v hs]
    simpa using hexact
  · rw [hlookup, hexact.mpr hdue]
    exact live_until i.1 (by omega)
  · exact deadlineAfter_mono hnow hf hle hdue

end

def storedKey : Dispatcher :=
  ((Dispatcher.fresh 48 0).dispatch (fun _ => 0) ⟨0, 0⟩ (parseCommand "SET k v".toList)).2

theorem minute_deadline_exact :
    live 5 (storedKey.storage.lookup (fun _ => 0) ['k']) = some (['v'], none) ∧
      ∀ t < 1000000005, live t ((storedKey.dispatch (fun _ => 0) ⟨5, 5⟩
        ⟨.expire, [['k'], "60".toList]⟩).2.storage.lookup (fun _ => 0) ['k']) =
          some (['v'], some 60000000005) := by
  have hlive : live 5 (storedKey.storage.lookup (fun _ => 0) ['k']) = some (['v'], none) := by
    decide +kernel
  have h := deadline_exact_iff (fun _ => 0) storedKey ⟨5, 5⟩ ['k'] "60".toList [] 60
    (['v'], none) (by decide) (by decide +kernel) (by decide) hlive
  exact ⟨hlive,(h.2.2.2 (by decide)).1 (by decide)⟩

def longLease : Str × Dispatcher :=
  storedKey.dispatch (fun _ => 0) ⟨5000000000, 5000000000⟩
    (parseCommand "EXPIRE k 9223372036854775807".toList)

theorem long_lease_expires_at_once :
    longLease.1 = ":1\n".toList ∧
      longLease.2.storage.lookup (fun _ => 0) ['k'] = some (['v'], some 4000000000) ∧
      (longLease.2.dispatch (fun _ => 0) ⟨5000000000, 5000000000⟩
        (parseCommand "GET k".toList)).1 = nilResponse ∧
      deadlineAfter 5000000000 9223372036854775807 < deadlineAfter 5000000000 1 := by
  decide +kernel

theorem wrap32_fits {n : Int} (hl : -2147483648 ≤ n) (hu : n ≤ 2147483647) : wrap32 n = n := by
  rw [wrap32, Int.bmod_eq_of_le] <;> omega

theorem wrap32_eq_self {n : Int} (h : wrap32 n = n) : n ≤ 2147483647 := by
  have hlt := Int.bmod_lt (x := n) (m := 4294967296) (by decide)
  rw [wrap32] at h
  omega

theorem integerResponse_eq {n m : Int} :
    integerResponse n = [':'] ++ stdToString m ++ ['\n'] ↔ wrap32 n = m := by
  simp [integerResponse, stdToString_injective.eq_iff]

theorem remaining_nonneg (later deadline : Int) : 0 ≤ Shard.remaining later deadline := by
  unfold Shard.remaining
  dsimp only
  split <;> omega

theorem ttl_reply_truthful_iff (hash : Str → Nat) (d : Dispatcher) (r : Readings) (k : Str)
    (rest : List Str) :
    let reply := (d.dispatch hash r ⟨.ttl, k :: rest⟩).1
    let found := live r.now (d.storage.lookup hash k)
    ((reply = ":-2\n".toList ↔ found = none) ∧
      (reply = ":-1\n".toList ↔ ∃ v, found = some (v, none)) ∧
      (∀ v t, found = some (v, some t) →
        reply = [':'] ++ stdToString (Shard.remaining r.later t) ++ ['\n'])) ↔
    ∀ v t, found = some (v, some t) → Shard.remaining r.later t ≤ 2147483647 := by
  have hreply : (d.dispatch hash r ⟨.ttl, k :: rest⟩).1 =
      integerResponse (Shard.reported r.later (live r.now (d.storage.lookup hash k))) := by
    rw [← ShardedStorage.ttl_reported]
    rfl
  have htwo : ":-2\n".toList = [':'] ++ stdToString (-2) ++ ['\n'] := by decide
  have hone : ":-1\n".toList = [':'] ++ stdToString (-1) ++ ['\n'] := by decide
  simp only [hreply, htwo, hone, integerResponse_eq]
  rcases live r.now (d.storage.lookup hash k) with _ | ⟨v,_ | t⟩
  · simp [Shard.reported, wrap32]
  · simp [Shard.reported, wrap32]
  · have hpos := remaining_nonneg r.later t
    simp only [Shard.reported, reduceCtorEq, Option.some.injEq, Prod.mk.injEq, and_imp,
      forall_eq', forall_apply_eq_imp_iff, and_false, exists_false, iff_false]
    refine ⟨fun h => wrap32_eq_self h.2.2,fun h => ?_⟩
    rw [wrap32_fits (by omega) h]
    omega

def distantLease : Dispatcher :=
  (storedKey.dispatch (fun _ => 0) ⟨0, 0⟩ (parseCommand "EXPIRE k 4294967295".toList)).2

theorem distant_lease_reads_unlimited :
    live 0 (distantLease.storage.lookup (fun _ => 0) ['k']) =
        some (['v'], some 4294967295000000000) ∧
      Shard.remaining 0 4294967295000000000 = 4294967295 ∧
      (distantLease.dispatch (fun _ => 0) ⟨0, 0⟩ (parseCommand "TTL k".toList)).1 =
        ":-1\n".toList := by
  decide +kernel

end CacheForge
