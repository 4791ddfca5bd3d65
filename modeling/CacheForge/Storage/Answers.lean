import CacheForge.Library.Along
import CacheForge.Storage.History

namespace CacheForge

theorem live_live {now t : Int} (h : now ≤ t) (x : Option Item) :
    live t (live now x) = live t x := by
  cases x with
  | none => rfl
  | some i =>
    cases hx : itemExpired now i with
    | false => rw [live_some hx]
    | true =>
      have ht : itemExpired t i = true := by
        obtain ⟨v,d⟩ := i
        cases d with
        | none => cases hx
        | some d => exact decide_eq_true ((of_decide_eq_true hx).trans h)
      rw [live_expired hx, live_expired ht]
      rfl

theorem live_gone {now t : Int} (h : now ≤ t) {x : Option Item} (hx : live now x = none) :
    live t x = none := by
  rw [← live_live h, hx]
  rfl

def Fits64 (x : Int) : Prop := int64Min ≤ x ∧ x ≤ int64Max

instance (x : Int) : Decidable (Fits64 x) := inferInstanceAs (Decidable (_ ∧ _))

theorem wrap64_fits {x : Int} (h : Fits64 x) : wrap64 x = x := by
  obtain ⟨hl,hu⟩ := h
  simp only [int64Min, int64Max] at hl hu
  rw [wrap64, Int.bmod_eq_of_le] <;> omega

theorem deadlineAfter_fits {now seconds : Int} (hs : Fits64 (seconds * 1000000000))
    (hd : Fits64 (now + seconds * 1000000000)) :
    deadlineAfter now seconds = now + seconds * 1000000000 := by
  rw [deadlineAfter, wrap64_fits hs, wrap64_fits hd]

theorem remaining_fits {later d : Int} (h : Fits64 (d - later)) :
    Shard.remaining later d = max 0 ((d - later) / 1000000000) := by
  rw [Shard.remaining, wrap64_fits h]
  rcases le_or_gt 0 (d - later) with hpos | hneg
  · rw [Int.tdiv_eq_ediv_of_nonneg hpos]
    split <;> omega
  · have ht : (d - later).tdiv 1000000000 ≤ 0 := by
      rw [← Int.neg_nonneg, ← Int.neg_tdiv]
      exact Int.tdiv_nonneg (by omega) (by decide)
    rw [if_neg (not_lt.mpr ht)]
    omega

def Call.readings : Call → List Int
  | .setWithTTL now _ _ _ => [now]
  | .get now _ => [now]
  | .del now _ => [now]
  | .expire now later _ _ => [now, later]
  | .ttl now later _ => [now, later]
  | .sweepShard now _ _ => [now]
  | _ => []

def Steady (cs : List Call) : Prop := (cs.flatMap Call.readings).Pairwise (· ≤ ·)

instance (cs : List Call) : Decidable (Steady cs) := inferInstanceAs (Decidable (List.Pairwise _ _))

def leftFits (later : Int) : Option Item → Prop
  | some (_, some d) => Fits64 (d - later)
  | _ => True

def NoOverflow (h : List Exchange) : Call → Prop
  | .setWithTTL now _ _ seconds =>
      0 ≤ seconds → Fits64 (seconds * 1000000000) ∧ Fits64 (now + seconds * 1000000000)
  | .expire now later k seconds =>
      0 ≤ seconds → live now (Exchange.standing k h) ≠ none →
        Fits64 (seconds * 1000000000) ∧ Fits64 (later + seconds * 1000000000)
  | .ttl now later k => leftFits later (live now (Exchange.standing k h))
  | _ => True

instance (later : Int) : DecidablePred (leftFits later)
  | some (_, some _) => inferInstanceAs (Decidable (Fits64 _))
  | some (_, none) => isTrue trivial
  | none => isTrue trivial

instance (h : List Exchange) : DecidablePred (NoOverflow h)
  | .setWithTTL _ _ _ _ => inferInstanceAs (Decidable (_ → _))
  | .expire _ _ _ _ => inferInstanceAs (Decidable (_ → _))
  | .ttl _ _ _ => inferInstanceAs (Decidable (leftFits _ _))
  | .set _ _ | .get _ _ | .del _ _ | .size | .sweepShard _ _ _ => isTrue trivial

def timeLeft (later : Int) : Option Item → Int
  | none => -2
  | some (_, none) => -1
  | some (_, some d) => max 0 ((d - later) / 1000000000)

def answer (h : List Exchange) : Call → Option Reply
  | .get now k => some (.value ((live now (Exchange.standing k h)).map Prod.fst))
  | .del now k => some (.flag (live now (Exchange.standing k h)).isSome)
  | .expire now _ k seconds =>
      some (.flag (0 ≤ seconds ∧ (live now (Exchange.standing k h)).isSome))
  | .ttl now later k => some (.seconds (timeLeft later (live now (Exchange.standing k h))))
  | .size => none
  | _ => some .done

namespace ShardedStorage

variable {hash : Str → Nat} {st : ShardedStorage}

theorem onShard_lookup (hash : Str → Nat) (st : ShardedStorage) {R : Type} (key : Str)
    {op : Shard → Outcome R} {y : Option Item}
    (h : ∀ x, (op (st.shards (shardIndex hash key))).shard.lookup x =
      if x = key then y else (st.shards (shardIndex hash key)).lookup x) (k : Str) :
    (st.onShard hash key op).2.lookup hash k = if k = key then y else st.lookup hash k := by
  rw [lookup, onShard, locked_pointwise h]
  by_cases hk : k = key
  · simp [hk]
  · simp [hk, lookup]

theorem insert_lookup (hwf : ∀ i, (st.shards i).WellFormed hash i st.maxKeysPerShard)
    (key v : Str) (d : Option Int) (k : Str) :
    (st.onShard hash key (Shard.insertOrUpdate st.maxKeysPerShard key v d)).2.lookup hash k =
      if k = key then some (v, d)
      else if k ∈ (st.shards (shardIndex hash key)).insertEvictees st.maxKeysPerShard key then none
      else st.lookup hash k := by
  rw [lookup, onShard, locked_shards]
  by_cases hk : k = key
  · simp [hk, (Shard.insertOrUpdate_spec st.maxKeysPerShard key v d _).1]
  · by_cases hi : shardIndex hash k = shardIndex hash key
    · simp only [hi, if_true, hk, if_false, Shard.insertOrUpdate_lookup _ _ _ _ _ hk, lookup]
    · have hout : k ∉ (st.shards (shardIndex hash key)).insertEvictees st.maxKeysPerShard key := by
        intro hm
        unfold Shard.insertEvictees at hm
        split at hm
        · simp at hm
        · have hdata := ((hwf _).sameKeys k).mp (Shard.evictees_mem hm)
          exact hi ((hwf _).home k hdata)
      simp [hi, hk, hout, lookup]

end ShardedStorage

section

variable {hash : Str → Nat} {st : ShardedStorage} {h : List Exchange} {L : List Int}

def Tracks (hash : Str → Nat) (st : ShardedStorage) (h : List Exchange) (L : List Int) : Prop :=
  ∀ k t, (∀ r ∈ L, r ≤ t) → live t (st.lookup hash k) = live t (Exchange.standing k h)

theorem tracks_write {st' : ShardedStorage} {e : Exchange} {key : Str} {item : Item}
    (hold : Tracks hash st h L)
    (hlook : ∀ k, st'.lookup hash k =
      if k = key then some item else if k ∈ e.evicted then none else st.lookup hash k)
    (hw : ∀ k, e.writes k = if key = k then some item else none)
    (hd : ∀ k, e.deletes k = false) (hx : ∀ k, e.extension k = none) :
    Tracks hash st' (h ++ [e]) L := by
  intro k t ht
  rw [hlook k]
  by_cases hk : k = key
  · rw [Exchange.standing_write ((hw k).trans (if_pos hk.symm)), if_pos hk]
  · rw [Exchange.standing_snoc ((hw k).trans (if_neg (Ne.symm hk))), if_neg hk, hd, hx]
    by_cases hm : k ∈ e.evicted
    · simp [hm]
    · simpa [hm] using hold k t ht

theorem tracks_quiet {st' : ShardedStorage} {e : Exchange} (now : Int)
    (hold : Tracks hash st h L)
    (hlook : ∀ k, st'.lookup hash k = st.lookup hash k ∨
      st'.lookup hash k = none ∧ live now (st.lookup hash k) = none)
    (he : ∀ k, e.Silent k) (k : Str) (t : Int) (ht : ∀ r ∈ L, r ≤ t) (hnow : now ≤ t) :
    live t (st'.lookup hash k) = live t (Exchange.standing k (h ++ [e])) := by
  rw [Exchange.standing_silent (he k), ← hold k t ht]
  rcases hlook k with hk | ⟨hk,hl⟩
  · rw [hk]
  · rw [hk, live_gone hnow hl]
    rfl

theorem lookup_visited {st' : ShardedStorage} {now : Int} {key : Str}
    (hlook : ∀ k, st'.lookup hash k =
      if k = key then live now (st.lookup hash key) else st.lookup hash k) (k : Str) :
    st'.lookup hash k = st.lookup hash k ∨
      st'.lookup hash k = none ∧ live now (st.lookup hash k) = none := by
  rw [hlook k]
  split
  · rename_i hk
    rw [hk]
    cases hl : live now (st.lookup hash key) with
    | none => exact Or.inr ⟨rfl,rfl⟩
    | some i => exact Or.inl (live_eq_some hl).symm
  · exact Or.inl rfl

theorem tracks_del (hold : Tracks hash st h L) {now : Int} (hL : ∀ r ∈ L, r ≤ now) (key k : Str)
    {t : Int} (ht : now ≤ t) :
    live t ((st.del hash now key).2.lookup hash k) =
      live t (Exchange.standing k (h ++ [⟨.del now key, .flag (st.del hash now key).1, []⟩])) := by
  have hlook := ShardedStorage.onShard_lookup hash st key
    (Shard.del_spec now key _).2.2 k
  have hkeep := hold k t fun r hr => (hL r hr).trans ht
  rw [ShardedStorage.del, hlook, ← ShardedStorage.del, Exchange.standing_snoc rfl,
    Exchange.deletes_del]
  by_cases hk : k = key
  · subst hk
    cases hr : (st.del hash now k).1 with
    | true => simp
    | false =>
      have hnone : live now (st.lookup hash k) = none := by
        simpa [ShardedStorage.del_result] using hr
      rw [live_gone ht hnone] at hkeep
      simpa [Exchange.extension] using hkeep
  · simpa [hk, Ne.symm hk, Exchange.extension] using hkeep

theorem tracks_expire (hold : Tracks hash st h L) {now : Int} (hL : ∀ r ∈ L, r ≤ now) {later : Int}
    {key : Str} {seconds : Int} (hfits : NoOverflow h (.expire now later key seconds)) (k : Str)
    {t : Int} (ht : now ≤ t) :
    live t ((st.expire hash now later key seconds).2.lookup hash k) =
      live t (Exchange.standing k (h ++
        [⟨.expire now later key seconds, .flag (st.expire hash now later key seconds).1, []⟩])) := by
  have hkeep := hold k t fun r hr => (hL r hr).trans ht
  rw [Exchange.standing_snoc rfl, Exchange.extension_expire]
  rcases lt_or_ge seconds 0 with hs | hs
  · simpa [ShardedStorage.expire, hs, Exchange.deletes] using hkeep
  · have hlook := ShardedStorage.onShard_lookup hash st key
      (Shard.expire_spec now later key seconds _).2.2 k
    have hres := ShardedStorage.expire_result hash now later key st hs
    rw [hres, ShardedStorage.expire, if_neg (not_lt.mpr hs), hlook]
    by_cases hk : k = key
    · subst hk
      have hnow := hold k now hL
      have hdef : (st.shards (shardIndex hash k)).lookup k = st.lookup hash k := rfl
      rw [hdef]
      cases hl : live now (st.lookup hash k) with
      | none =>
        rw [live_gone ht hl] at hkeep
        simpa [Exchange.deletes] using hkeep
      | some i =>
        rw [hl] at hnow
        obtain ⟨h₁,h₂⟩ := hfits hs (by simp [← hnow])
        simp [live_eq_some hnow.symm, deadlineAfter_fits h₁ h₂, Exchange.deletes]
    · simpa [hk, Ne.symm hk, Exchange.deletes] using hkeep

theorem tracks_step (hwf : ∀ i, (st.shards i).WellFormed hash i st.maxKeysPerShard)
    (hold : Tracks hash st h L) {x : Call} (hfits : NoOverflow h x)
    (hL : ∀ r ∈ L, ∀ n ∈ x.readings, r ≤ n) :
    Tracks hash (st.call hash x).2 (h ++ [(st.exchange hash x).1]) (L ++ x.readings) := by
  intro k t ht
  have htL : ∀ r ∈ L, r ≤ t := fun r hr => ht r (by simp [hr])
  cases x with
  | set key v =>
    exact tracks_write hold (ShardedStorage.insert_lookup hwf key v none) (fun _ => rfl)
      (fun _ => rfl) (fun _ => rfl) k t htL
  | setWithTTL now key v seconds =>
    have hd : (if seconds < 0 then none else some (deadlineAfter now seconds)) =
        if seconds < 0 then none else some (now + seconds * 1000000000) := by
      split
      · rfl
      · rename_i hs
        obtain ⟨h₁,h₂⟩ := hfits (not_lt.mp hs)
        rw [deadlineAfter_fits h₁ h₂]
    have hlook := ShardedStorage.insert_lookup hwf key v
      (if seconds < 0 then none else some (deadlineAfter now seconds))
    refine tracks_write hold hlook ?_ (fun _ => rfl) (fun _ => rfl) k t htL
    rw [hd]
    exact fun _ => rfl
  | get now key =>
    have hlook := ShardedStorage.onShard_lookup hash st key
      (Shard.get_spec now key _).2.2
    exact tracks_quiet now hold (lookup_visited hlook) (fun _ => ⟨rfl,rfl,List.not_mem_nil,rfl⟩) k t htL
      (ht now (by simp [Call.readings]))
  | del now key =>
    exact tracks_del hold (fun r hr => hL r hr now (by simp [Call.readings])) key k
      (ht now (by simp [Call.readings]))
  | expire now later key seconds =>
    exact tracks_expire hold (fun r hr => hL r hr now (by simp [Call.readings])) hfits k
      (ht now (by simp [Call.readings]))
  | ttl now later key =>
    have hlook := ShardedStorage.onShard_lookup hash st key
      (Shard.ttl_spec now later key _).2
    exact tracks_quiet now hold (lookup_visited hlook) (fun _ => ⟨rfl,rfl,List.not_mem_nil,rfl⟩) k t htL
      (ht now (by simp [Call.readings]))
  | size =>
    exact tracks_quiet t hold (fun _ => Or.inl rfl) (fun _ => ⟨rfl,rfl,List.not_mem_nil,rfl⟩) k t htL
      le_rfl
  | sweepShard now i order =>
    refine tracks_quiet now hold (fun k => ?_) (fun _ => ⟨rfl,rfl,List.not_mem_nil,rfl⟩)
      k t htL (ht now (by simp [Call.readings]))
    simp only [ShardedStorage.call, ShardedStorage.sweepShard, ShardedStorage.lookup,
      ShardedStorage.locked_shards]
    split
    · rename_i hi
      rw [hi]
      exact (Shard.sweepShard_spec now order (st.shards i)).2 k
    · exact Or.inl rfl

theorem ttl_result (now later : Int) (key : Str) (st : ShardedStorage)
    (hfits : leftFits later (live now (st.lookup hash key))) :
    (st.ttl hash now later key).1 = timeLeft later (live now (st.lookup hash key)) := by
  rw [ShardedStorage.ttl_reported]
  generalize live now (st.lookup hash key) = found at hfits ⊢
  rcases found with _ | ⟨v,_ | d⟩
  · rfl
  · rfl
  · exact remaining_fits hfits

theorem answer_step (hold : Tracks hash st h L) {x : Call} (hfits : NoOverflow h x)
    (hL : ∀ r ∈ L, ∀ n ∈ x.readings, r ≤ n) {r : Reply} (hr : answer h x = some r) :
    (st.call hash x).1 = r := by
  cases x with
  | set | setWithTTL | sweepShard => exact Option.some.inj hr
  | size => cases hr
  | get now key =>
    have hk := hold key now fun r hr => hL r hr now (by simp [Call.readings])
    refine Option.some.inj (Eq.trans ?_ hr)
    rw [answer, ← hk, ← ShardedStorage.get_result]
    rfl
  | del now key =>
    have hk := hold key now fun r hr => hL r hr now (by simp [Call.readings])
    refine Option.some.inj (Eq.trans ?_ hr)
    rw [answer, ← hk, ← ShardedStorage.del_result]
    rfl
  | expire now later key seconds =>
    have hk := hold key now fun r hr => hL r hr now (by simp [Call.readings])
    refine Option.some.inj (Eq.trans ?_ hr)
    rw [answer, ← hk]
    rcases lt_or_ge seconds 0 with hs | hs
    · simp [ShardedStorage.call, ShardedStorage.expire, hs, not_le.mpr hs]
    · simp [ShardedStorage.call, ShardedStorage.expire_result hash now later key st hs, hs]
  | ttl now later key =>
    have hk := hold key now fun r hr => hL r hr now (by simp [Call.readings])
    refine Option.some.inj (Eq.trans ?_ hr)
    rw [answer, ← hk, ← ttl_result now later key st (by rw [hk]; exact hfits)]
    rfl

end

theorem answer_keyed {h : List Exchange} (hv : ∀ e ∈ h, e.keyed = false → e.evicted = [])
    (x : Call) : answer (h.filter Exchange.keyed) x = answer h x := by
  cases x <;> simp only [answer, Exchange.standing_keyed _ hv]

def Explained (h : List Exchange) : Prop :=
  ∀ a e b, h = a ++ e :: b → answer a e.call = some e.reply

theorem explained_unique {h h' : List Exchange} (hx : Explained h) (hx' : Explained h')
    (hmap : h.map (fun e => (e.call, e.evicted)) = h'.map (fun e => (e.call, e.evicted))) :
    h = h' := by
  induction h using List.reverseRecOn generalizing h' with
  | nil => exact (List.map_eq_nil_iff.mp hmap.symm).symm
  | append_singleton h e ih =>
    rw [List.map_append, List.map_singleton] at hmap
    obtain ⟨g,l,rfl,hg,hl⟩ := List.map_eq_append_iff.mp hmap.symm
    obtain ⟨d,rfl,hd⟩ := List.map_eq_singleton_iff.mp hl
    have hpre {a : List Exchange} {y : Exchange} (hy : Explained (a ++ [y])) : Explained a :=
      fun b z c hz => hy b z (c ++ [y]) (by simp [hz])
    have hgh := ih (hpre hx) (hpre hx') hg.symm
    obtain ⟨hc,hv⟩ := Prod.mk.inj hd
    have h₁ := hx h e [] rfl
    have h₂ := hx' g d [] rfl
    rw [← hgh, hc, h₁] at h₂
    have hed : e = d := by
      cases e
      cases d
      simp_all
    rw [hgh, hed]

section

variable (hash : Str → Nat) (maxKeys : Nat)

abbrev Exact (cs : List Call) : Prop :=
  Along.Holds (fun p x => p ++ [x]) (fun p x => NoOverflow (history hash maxKeys p) x) [] cs

theorem exchanges_calls (cs : List Call) (st : ShardedStorage) :
    (Transducer.run (ShardedStorage.exchange hash) cs st).2 = (st.calls hash cs).2 :=
  Transducer.run_state (f := ShardedStorage.exchange hash) (g := ShardedStorage.call hash)
    (fun _ _ => rfl) cs st

theorem history_snoc (cs : List Call) (x : Call) :
    history hash maxKeys (cs ++ [x]) =
      history hash maxKeys cs ++
        [(((ShardedStorage.create maxKeys).calls hash cs).2.exchange hash x).1] := by
  rw [history, Transducer.run_snoc, exchanges_calls]
  rfl

theorem Steady.split {p q : List Call} {x : Call} (hs : Steady (p ++ x :: q)) :
    Steady p ∧ ∀ r ∈ p.flatMap Call.readings, ∀ n ∈ x.readings, r ≤ n := by
  rw [Steady, List.flatMap_append, List.flatMap_cons, List.pairwise_append] at hs
  exact ⟨hs.1,fun r hr n hn => hs.2.2 r hr n (by simp [hn])⟩

theorem Exact.split {p q : List Call} {x : Call} (he : Exact hash maxKeys (p ++ x :: q)) :
    Exact hash maxKeys p ∧ NoOverflow (history hash maxKeys p) x := by
  obtain ⟨hp,hx⟩ := Along.holds_append.mp he
  rw [Along.foldl_snoc, List.nil_append] at hx
  exact ⟨hp,hx.1⟩

theorem tracks_calls {cs : List Call} (hs : Steady cs) (he : Exact hash maxKeys cs) :
    Tracks hash ((ShardedStorage.create maxKeys).calls hash cs).2 (history hash maxKeys cs)
      (cs.flatMap Call.readings) := by
  induction cs using List.reverseRecOn with
  | nil => exact fun _ _ _ => rfl
  | append_singleton cs x ih =>
    obtain ⟨hs,hL⟩ := hs.split
    obtain ⟨he,hfits⟩ := he.split
    have hwf := ((Simulates.create hash maxKeys).calls cs).2.wellFormed
    have hstep := tracks_step hwf (ih hs he) hfits hL
    rw [history_snoc, ShardedStorage.calls, Transducer.run_snoc, List.flatMap_append,
      List.flatMap_singleton]
    exact hstep

theorem history_split {cs : List Call} {a b : List Exchange} {e : Exchange}
    (h : history hash maxKeys cs = a ++ e :: b) :
    ∃ p x q, cs = p ++ x :: q ∧ a = history hash maxKeys p ∧
      e = (((ShardedStorage.create maxKeys).calls hash p).2.exchange hash x).1 := by
  have hlen : cs.length = a.length + (b.length + 1) := by
    have := congrArg List.length h
    simpa [history, Transducer.run_length] using this
  obtain ⟨x,q,hq⟩ : ∃ x q, cs.drop a.length = x :: q := by
    cases hd : cs.drop a.length with
    | nil =>
      have := congrArg List.length hd
      simp only [List.length_drop, List.length_nil] at this
      omega
    | cons x q => exact ⟨x,q,rfl⟩
  have hcs : cs = cs.take a.length ++ x :: q := by rw [← hq, List.take_append_drop]
  refine ⟨cs.take a.length,x,q,hcs,?_⟩
  rw [hcs, history, Transducer.run_append] at h
  obtain ⟨ha,he⟩ := List.append_inj h (by
    rw [Transducer.run_length, List.length_take]
    omega)
  refine ⟨ha.symm,?_⟩
  rw [exchanges_calls] at he
  exact (List.cons.inj he).1.symm

theorem history_unkeyed (cs : List Call) :
    ∀ e ∈ history hash maxKeys cs, e.keyed = false → e.evicted = [] := by
  intro e he hk
  obtain ⟨a,b,hab⟩ := List.append_of_mem he
  obtain ⟨p,x,q,-,-,rfl⟩ := history_split hash maxKeys hab
  cases x with
  | size | sweepShard => rfl
  | _ => cases hk

theorem history_answered {cs : List Call} (hs : Steady cs) (he : Exact hash maxKeys cs)
    {a b : List Exchange} {e : Exchange} (h : history hash maxKeys cs = a ++ e :: b)
    (hk : e.keyed = true) : answer a e.call = some e.reply := by
  obtain ⟨p,x,q,rfl,rfl,rfl⟩ := history_split hash maxKeys h
  obtain ⟨hs,hL⟩ := hs.split
  obtain ⟨he,hfits⟩ := he.split
  obtain ⟨r,hr⟩ : ∃ r, answer (history hash maxKeys p) x = some r := by
    cases x with
    | size => cases hk
    | _ => exact ⟨_,rfl⟩
  exact hr.trans (congrArg some (answer_step (tracks_calls hash maxKeys hs he) hfits hL hr).symm)

theorem keyed_explained {cs : List Call} (hs : Steady cs) (he : Exact hash maxKeys cs) :
    Explained ((history hash maxKeys cs).filter Exchange.keyed) := by
  intro a e b hab
  obtain ⟨A,E,hAE,rfl,hE⟩ := List.filter_eq_append_iff.mp hab
  obtain ⟨B,C,rfl,hB,hk,-⟩ := List.filter_eq_cons_iff.mp hE
  have hB' : B.filter Exchange.keyed = [] := List.filter_eq_nil_iff.mpr hB
  have hv : ∀ d ∈ A ++ B, d.keyed = false → d.evicted = [] := fun d hd =>
    history_unkeyed hash maxKeys cs d (by
      rw [hAE]
      simp only [List.mem_append] at hd ⊢
      tauto)
  have hans := history_answered hash maxKeys hs he (a := A ++ B) (by rw [hAE, List.append_assoc]) hk
  rwa [← answer_keyed hv, List.filter_append, hB', List.append_nil] at hans

theorem history_determines_replies :
    (∀ cs x r, Steady (cs ++ [x]) → Exact hash maxKeys (cs ++ [x]) →
      answer (history hash maxKeys cs) x = some r →
      (((ShardedStorage.create maxKeys).calls hash cs).2.call hash x).1 = r) ∧
    ∀ cs cs', Steady cs → Exact hash maxKeys cs → Steady cs' → Exact hash maxKeys cs' →
      ((history hash maxKeys cs).filter Exchange.keyed).map (fun e => (e.call, e.evicted)) =
        ((history hash maxKeys cs').filter Exchange.keyed).map (fun e => (e.call, e.evicted)) →
      (history hash maxKeys cs).filter Exchange.keyed =
        (history hash maxKeys cs').filter Exchange.keyed := by
  constructor
  · intro cs x r hs he hr
    obtain ⟨hs,hL⟩ := hs.split
    obtain ⟨he,hfits⟩ := he.split
    exact answer_step (tracks_calls hash maxKeys hs he) hfits hL hr
  · intro cs cs' hs he hs' he' hmap
    exact explained_unique (keyed_explained hash maxKeys hs he)
      (keyed_explained hash maxKeys hs' he') hmap

end

def leasedCalls : List Call :=
  [.setWithTTL 0 ['k'] ['v'] 2, .set ['l'] ['w'], .expire 5 6 ['k'] 3,
    .sweepShard 7 ⟨0, Nat.succ_pos 15⟩ [['k']], .del 8 ['l']]

theorem leased_calls_answered :
    (((ShardedStorage.create 48).calls (fun _ => 0) leasedCalls).2.call (fun _ => 0)
        (.get 9 ['k'])).1 = .value (some ['v']) ∧
      (((ShardedStorage.create 48).calls (fun _ => 0) leasedCalls).2.call (fun _ => 0)
        (.ttl 9 1000000006 ['k'])).1 = .seconds 2 ∧
      (history (fun _ => 0) 48 leasedCalls).filter Exchange.keyed =
        (history (fun _ => 0) 48 (leasedCalls.filter (fun x => !x.isSweep))).filter
          Exchange.keyed :=
  ⟨(history_determines_replies (fun _ => 0) 48).1 leasedCalls _ _ (by decide +kernel)
      (by decide +kernel) (by decide +kernel),
    (history_determines_replies (fun _ => 0) 48).1 leasedCalls _ _ (by decide +kernel)
      (by decide +kernel) (by decide +kernel),
    (history_determines_replies (fun _ => 0) 48).2 _ _ (by decide +kernel) (by decide +kernel)
      (by decide +kernel) (by decide +kernel) (by decide +kernel)⟩

end CacheForge
