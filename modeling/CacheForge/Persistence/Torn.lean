import CacheForge.Persistence.Serial

namespace CacheForge

def Command.record (cmd : Command) : Option Record :=
  match cmd.type, cmd.args with
  | .set, k :: v :: _ => some (.set k v)
  | .del, k :: _ => some (.del k)
  | .expire, k :: a :: _ =>
      match stoll a with
      | some n => if n ≤ 0 then none else some (.expire k n)
      | none => none
  | _, _ => none

namespace Record

def type : Record → CommandType
  | set _ _ => .set
  | del _ => .del
  | expire _ _ => .expire

def Matches : Record → Record → Prop
  | expire k n, expire k' n' =>
      k = k' ∧ 0 < n' ∧ wrap64 (n * 1000000000) = wrap64 (n' * 1000000000)
  | rec, l => rec = l

def Unheld : Record → Prop
  | set _ _ => False
  | del k => ¬Survives k
  | expire k _ => ¬Survives k

end Record

def Recoverable (l : Record) (t : Str) : Prop :=
  ∀ rec ∈ (parseCommand t).record, rec.Matches l ∨ rec.Unheld

section

variable (hash : Str → Nat)

def Restores (maxKeys : Nat) (clock : Nat → Readings) (recs : List Record) (file : Str) : Prop :=
  ∃ m ≤ recs.length, (replay hash clock (some file) (.create maxKeys)).storage =
    (replay hash clock (some (aofFile ((recs.take m).map Record.line))) (.create maxKeys)).storage

theorem replayCommand_reads (r : Readings) (cmd : Command) (p : Replayed) :
    (∃ rec, cmd.record = some rec ∧
        replayCommand hash r cmd p = p.applied (rec.apply hash r p.storage)) ∨
      cmd.record = none ∧
        (replayCommand hash r cmd p = p.skipped ∨ replayCommand hash r cmd p = p.failed) := by
  obtain ⟨type,args⟩ := cmd
  cases type with
  | set =>
    rcases args with _ | ⟨k,_ | ⟨v,rest⟩⟩
    · exact Or.inr ⟨rfl,Or.inr rfl⟩
    · exact Or.inr ⟨rfl,Or.inr rfl⟩
    · exact Or.inl ⟨.set k v,rfl,rfl⟩
  | del =>
    rcases args with _ | ⟨k,rest⟩
    · exact Or.inr ⟨rfl,Or.inr rfl⟩
    · exact Or.inl ⟨.del k,rfl,rfl⟩
  | expire =>
    rcases args with _ | ⟨k,_ | ⟨a,rest⟩⟩
    · exact Or.inr ⟨rfl,Or.inr rfl⟩
    · exact Or.inr ⟨rfl,Or.inr rfl⟩
    · simp only [replayCommand, Command.record]
      cases stoll a with
      | none => exact Or.inr ⟨rfl,Or.inr rfl⟩
      | some n =>
        by_cases hn : n ≤ 0
        · exact Or.inr ⟨if_pos hn,Or.inr (if_pos hn)⟩
        · exact Or.inl ⟨.expire k n,if_neg hn,if_neg hn⟩
  | _ => exact Or.inr ⟨rfl,Or.inl rfl⟩

theorem replayCommand_storage (r : Readings) (cmd : Command) (p : Replayed) :
    (replayCommand hash r cmd p).storage =
      match cmd.record with
      | none => p.storage
      | some rec => rec.apply hash r p.storage := by
  rcases replayCommand_reads hash r cmd p with ⟨rec,hrec,h⟩ | ⟨hrec,h | h⟩ <;>
    rw [hrec, h] <;> rfl

theorem record_spec {cmd : Command} {rec : Record} (h : cmd.record = some rec) :
    rec.Positive ∧ (∀ t ∈ rec.tokens, t ∈ cmd.args) ∧ cmd.type = rec.type := by
  obtain ⟨type,args⟩ := cmd
  cases type with
  | set =>
    rcases args with _ | ⟨k,_ | ⟨v,rest⟩⟩ <;> cases h
    exact ⟨trivial,by simp [Record.tokens],rfl⟩
  | del =>
    rcases args with _ | ⟨k,rest⟩ <;> cases h
    exact ⟨trivial,by simp [Record.tokens],rfl⟩
  | expire =>
    rcases args with _ | ⟨k,_ | ⟨a,rest⟩⟩
    · cases h
    · cases h
    · simp only [Command.record] at h
      split at h
      · split at h
        · cases h
        · rename_i hn
          cases h
          exact ⟨not_le.mp hn,by simp [Record.tokens],rfl⟩
      · cases h
  | _ => cases h

theorem command_record {rec : Record} (hr : rec.InRange) (hpos : rec.Positive) :
    rec.command.record = some rec := by
  cases rec with
  | set k v | del k => rfl
  | expire k n =>
    have hn : stoll (stdToString n) = some n := stoll_stdToString hr.1 hr.2
    have hle : ¬n ≤ 0 := not_le.mpr hpos
    simp [Record.command, Command.record, hn, hle]

theorem replay_torn (clock : Nat → Readings) {recs : List Record} {t : Str} (st : ShardedStorage)
    (hl : ∀ rec ∈ recs, rec.Loggable) (ht : '\n' ∉ t) :
    (replay hash clock (some (aofFile (recs.map Record.line) ++ t)) st).storage =
      match (parseCommand t).record with
      | none => (recover hash clock recs ⟨st, .zero⟩).storage
      | some rec => rec.apply hash (clock recs.length)
          (recover hash clock recs ⟨st, .zero⟩).storage := by
  have hrec := replayLines_recover hash clock ⟨st, .zero⟩ hl
  rw [← replayCommand_storage, replay, getlines_torn (loggable_lines hl) ht]
  cases t with
  | nil =>
    rw [Lines.leftover, List.append_nil, hrec]
    rfl
  | cons c cs =>
    rw [Lines.leftover_cons, replayLines_snoc, hrec, List.length_map, replayLine,
      if_neg (List.cons_ne_nil c cs)]

theorem recover_keys {clock : Nat → Readings} {recs : List Record} {maxKeys : Nat} {k : Str}
    (h : (recover hash clock recs ⟨.create maxKeys, .zero⟩).storage.lookup hash k ≠ none) :
    ∃ v, .set k v ∈ recs := by
  induction recs using List.reverseRecOn with
  | nil => exact absurd rfl h
  | append_singleton recs rec ih =>
    have old (h : (recover hash clock recs ⟨.create maxKeys, .zero⟩).storage.lookup hash k ≠ none) :
        ∃ v, .set k v ∈ recs ++ [rec] := by
      obtain ⟨v,hv⟩ := ih h
      exact ⟨v,by simp [hv]⟩
    rw [recover_snoc] at h
    by_cases hk : k = rec.key
    · by_cases hpos : rec.Positive
      · rw [Record.replay_positive hash _ hpos] at h
        simp only [Replayed.applied] at h
        rw [hk, Record.apply_self] at h
        rcases Record.update_present _ h with hx | ⟨v,hv⟩
        · exact old (hk ▸ hx)
        · exact ⟨v,by simp [hk, ← hv]⟩
      · exact old (by rwa [Record.replay_rejected hash _ hpos] at h)
    · rcases Record.replay_other hash _ hk _ with hx | hx
      · exact old (hx ▸ h)
      · exact absurd hx h

theorem locked_idle {R : Type} {i : Fin numShards} {op : Shard → Outcome R} {st : ShardedStorage}
    {result : R} (h : op (st.shards i) = ⟨result, st.shards i, 0, 0⟩) : (st.locked i op).2 = st := by
  simp [ShardedStorage.locked, h]

theorem access_absent {R : Type} {s : Shard} {k : Str} (h : s.lookup k = none) (now : Int)
    (absent : R) (hit : Entry → Outcome R) : s.access now k absent hit = ⟨absent, s, 0, 0⟩ := by
  rw [Shard.access, Option.map_eq_none_iff.mp h]

theorem apply_absent {rec : Record} {st : ShardedStorage} (r : Readings)
    (h : st.lookup hash rec.key = none) (hs : rec.Unheld) : rec.apply hash r st = st := by
  cases rec with
  | set k v => exact hs.elim
  | del k => exact locked_idle (access_absent h _ _ _)
  | expire k n =>
    simp only [Record.apply, ShardedStorage.expire]
    split
    · rfl
    · exact locked_idle (access_absent h _ _ _)

theorem matches_replay {rec l : Record} (r : Readings) (p : Replayed) (hp : rec.Positive)
    (h : rec.Matches l) : rec.apply hash r p.storage = (l.replay hash r p).storage := by
  have same (he : rec = l) : rec.apply hash r p.storage = (l.replay hash r p).storage := by
    rw [← he, Record.replay_positive hash r hp]
    rfl
  cases rec with
  | set k v => exact same h
  | del k => exact same h
  | expire k n =>
    cases l with
    | set k' v' => exact same h
    | del k' => exact same h
    | expire k' n' =>
      obtain ⟨rfl,hn',hw⟩ := h
      have hpos' : (Record.expire k n').Positive := hn'
      have hop : Shard.expire r.now r.later k n = Shard.expire r.now r.later k n' := by
        funext s
        rw [Shard.expire, Shard.expire, deadlineAfter, deadlineAfter, hw]
      rw [Record.replay_positive hash r hpos']
      simp only [Replayed.applied, Record.apply, ShardedStorage.expire,
        if_neg (not_lt.mpr (le_of_lt hn')), if_neg (not_lt.mpr (le_of_lt hp)), hop]

theorem restores_of_recoverable {maxKeys : Nat} {clock : Nat → Readings}
    {before after : List Record} {l : Record} {t : Str}
    (hl : ∀ rec ∈ before ++ l :: after, rec.Loggable) (ht : t <+: l.line) (h : Recoverable l t) :
    Restores hash maxKeys clock (before ++ l :: after) (aofFile (before.map Record.line) ++ t) := by
  have hbefore : ∀ rec ∈ before, rec.Loggable := fun rec hr => hl rec (by simp [hr])
  have hclean : '\n' ∉ t := fun hc => (hl l (by simp)).1 (ht.subset hc)
  have hstay : (recover hash clock before ⟨.create maxKeys, .zero⟩).storage =
      (replay hash clock (some (aofFile (((before ++ l :: after).take before.length).map
        Record.line))) (.create maxKeys)).storage := by
    rw [List.take_left', replay_recover hash clock _ hbefore]
    rfl
  have hnext : (l.replay hash (clock before.length)
        (recover hash clock before ⟨.create maxKeys, .zero⟩)).storage =
      (replay hash clock (some (aofFile (((before ++ l :: after).take (before.length + 1)).map
        Record.line))) (.create maxKeys)).storage := by
    have htake : (before ++ l :: after).take (before.length + 1) = before ++ [l] := by
      simp [List.take_append]
    rw [htake, replay_recover hash clock _ (fun rec hr => hl rec (by
      rcases List.mem_append.mp hr with hr | hr <;> simp_all)), recover_snoc]
  have hstate := replay_torn hash clock (.create maxKeys) hbefore hclean
  cases hc : (parseCommand t).record with
  | none =>
    rw [hc] at hstate
    exact ⟨before.length,by simp,hstate.trans hstay⟩
  | some rec =>
    rw [hc] at hstate
    rcases h rec hc with hm | hu
    · refine ⟨before.length + 1,by simp,hstate.trans ?_⟩
      rw [← hnext]
      exact matches_replay hash _ _ (record_spec hc).1 hm
    · refine ⟨before.length,by simp,hstate.trans ?_⟩
      rw [← hstay]
      refine apply_absent hash _ ?_ hu
      by_contra hk
      obtain ⟨v,hv⟩ := recover_keys hash hk
      have hsurv : Survives rec.key := (hbefore _ hv).2.1 _ (by simp [Record.tokens])
      cases rec with
      | set k v => exact hu
      | del k => exact hu hsurv
      | expire k n => exact hu hsurv

def rebuilt (maxKeys : Nat) (recs : List Record) : ShardedStorage :=
  (recover hash (fun _ => ⟨0, 0⟩) recs ⟨.create maxKeys, .zero⟩).storage

theorem rebuilt_snoc {maxKeys : Nat} {recs : List Record} {rec : Record} (hp : rec.Positive) :
    rebuilt hash maxKeys (recs ++ [rec]) = rec.apply hash ⟨0, 0⟩ (rebuilt hash maxKeys recs) := by
  rw [rebuilt, recover_snoc, Record.replay_positive hash _ hp]
  rfl

theorem rebuilt_rejected {maxKeys : Nat} {recs : List Record} {rec : Record} (hp : ¬rec.Positive) :
    rebuilt hash maxKeys (recs ++ [rec]) = rebuilt hash maxKeys recs := by
  rw [rebuilt, recover_snoc, Record.replay_rejected hash _ hp]
  rfl

theorem rebuilt_self (maxKeys : Nat) (recs : List Record) {rec : Record} (hp : rec.Positive) :
    (rebuilt hash maxKeys (recs ++ [rec])).lookup hash rec.key =
      rec.update ⟨0, 0⟩ ((rebuilt hash maxKeys recs).lookup hash rec.key) := by
  rw [rebuilt_snoc hash hp, Record.apply_self]

theorem rebuilt_set (maxKeys : Nat) (recs : List Record) (k v : Str) :
    (rebuilt hash maxKeys (recs ++ [.set k v])).lookup hash k = some (v, none) :=
  rebuilt_self hash maxKeys recs (show (Record.set k v).Positive from trivial)

theorem rebuilt_fits {maxKeys : Nat} {K : Finset Str} (hroom : K.card ≤ max 1 (maxKeys / numShards))
    (recs : List Record) (hK : ∀ rec ∈ recs, rec.key ∈ K) :
    Fits hash K (rebuilt hash maxKeys recs) := by
  induction recs using List.reverseRecOn with
  | nil => exact ⟨fun i x hx => absurd rfl hx,fun i => le_trans (Finset.card_filter_le _ _) hroom⟩
  | append_singleton recs rec ih =>
    have ih := ih fun rec h => hK rec (by simp [h])
    by_cases hp : rec.Positive
    · rw [rebuilt_snoc hash hp]
      exact ih.apply _ fun k v h => by simpa [h, Record.key] using hK rec (by simp)
    · rwa [rebuilt_rejected hash hp]

theorem rebuilt_keeps {maxKeys : Nat} {K : Finset Str} (hroom : K.card ≤ max 1 (maxKeys / numShards))
    (recs : List Record) (rec : Record) (hK : ∀ rec' ∈ recs ++ [rec], rec'.key ∈ K) {x : Str}
    (hx : x ≠ rec.key) : (rebuilt hash maxKeys (recs ++ [rec])).lookup hash x =
      (rebuilt hash maxKeys recs).lookup hash x := by
  by_cases hp : rec.Positive
  · rw [rebuilt_snoc hash hp]
    exact (rebuilt_fits hash hroom recs fun rec h => hK rec (by simp [h])).keeps _ _
      (fun k v h => by simpa [h, Record.key] using hK rec (by simp)) hx
  · rw [rebuilt_rejected hash hp]

def Breaks (rec l : Record) : Prop :=
  ∃ maxKeys before, (∀ b ∈ before, b.Loggable) ∧
    ∀ m, rec.apply hash ⟨0, 0⟩ (rebuilt hash maxKeys before) ≠
      rebuilt hash maxKeys ((before ++ [l]).take m)

theorem set_breaks {k v : Str} {l : Record} (hm : ¬(Record.set k v).Matches l) :
    Breaks hash (.set k v) l := by
  refine ⟨0,[],by simp,fun m h => ?_⟩
  have hk := Record.apply_self hash ⟨0, 0⟩ (.set k v) (rebuilt hash 0 [])
  rw [h] at hk
  simp only [Record.key, Record.update] at hk
  obtain ⟨w,hw⟩ := recover_keys hash (ne_of_eq_of_ne hk (by simp))
  have hl : .set k w = l := by simpa using List.mem_of_mem_take hw
  subst hl
  have htake : ([] ++ [Record.set k w]).take m = [] ++ [.set k w] := by
    cases m with
    | zero => simp at hw
    | succ m => simp
  have hs := rebuilt_set hash 0 [] k w
  rw [htake] at hk
  cases hs.symm.trans hk
  exact hm rfl

theorem loggable_set {k : Str} (hs : Survives k) (hc : '\n' ∉ k) :
    (Record.set k ['x']).Loggable := by
  have hx : Survives ['x'] := by decide +kernel
  refine ⟨Record.line_clean ?_,?_,trivial⟩
  · simp [Record.tokens, hc]
  · simp [Record.tokens, hs, hx]

def spareKey (k : Str) : Str := List.replicate (k.length + 1) 'a'

theorem spareKey_ne (k : Str) : spareKey k ≠ k := by
  intro h
  have hlen := congrArg List.length h
  simp [spareKey] at hlen

theorem loggable_spare (k : Str) : (Record.set (spareKey k) ['x']).Loggable := by
  have hmem : ∀ c ∈ spareKey k, c = 'a' := fun c hc => (List.mem_replicate.mp hc).2
  refine loggable_set (survives_iff.mpr ⟨by simp [spareKey],Or.inr ?_⟩) fun hc => ?_
  · refine List.any_eq_false.mpr fun c hc => ?_
    rw [hmem c hc]
    decide
  · exact absurd (hmem _ hc) (by decide)

theorem still_held {maxKeys : Nat} {recs : List Record} {k : Str} {l : Record}
    (hk : (rebuilt hash maxKeys recs).lookup hash k = some (['x'], none)) (hl : l ≠ .del k)
    (hkeep : k ≠ l.key → (rebuilt hash maxKeys (recs ++ [l])).lookup hash k =
      (rebuilt hash maxKeys recs).lookup hash k) :
    (rebuilt hash maxKeys (recs ++ [l])).lookup hash k ≠ none := by
  by_cases hkey : k = l.key
  · by_cases hp : l.Positive
    · have hself := rebuilt_self hash maxKeys recs hp
      rw [← hkey, hk] at hself
      rw [hself]
      cases l with
      | set k' v' => simp [Record.update]
      | del k' => exact absurd (congrArg Record.del hkey.symm) hl
      | expire k' n => simp [Record.update, not_lt.mpr (le_of_lt hp), live, itemExpired]
    · rw [rebuilt_rejected hash hp, hk]
      simp
  · rw [hkeep hkey, hk]
    simp

theorem del_breaks {k : Str} {l : Record} (hs : Survives k) (hc : '\n' ∉ k)
    (hm : ¬(Record.del k).Matches l) : Breaks hash (.del k) l := by
  have hroom : ({k, spareKey k, l.key} : Finset Str).card ≤ max 1 (48 / numShards) :=
    Finset.card_le_three
  have hne := spareKey_ne k
  have hk₁ := rebuilt_set hash 48 [] k ['x']
  have hk₂ := rebuilt_keeps hash hroom [.set k ['x']] (.set (spareKey k) ['x'])
    (by simp [Record.key]) hne.symm
  have ha₂ := rebuilt_set hash 48 [.set k ['x']] (spareKey k) ['x']
  rw [List.nil_append] at hk₁
  rw [hk₁, List.singleton_append] at hk₂
  rw [List.singleton_append] at ha₂
  have hk₃ := still_held hash hk₂ (fun he => hm he.symm)
    (rebuilt_keeps hash hroom _ l (by simp [Record.key]))
  refine ⟨48,[.set k ['x'], .set (spareKey k) ['x']],?_,fun m h => ?_⟩
  · simp [loggable_set hs hc, loggable_spare]
  · have hfit := rebuilt_fits hash hroom [.set k ['x'], .set (spareKey k) ['x']]
      (by simp [Record.key])
    have hgone := Record.apply_self hash ⟨0, 0⟩ (.del k)
      (rebuilt hash 48 [.set k ['x'], .set (spareKey k) ['x']])
    have hspare := hfit.keeps ⟨0, 0⟩ (.del k) (by simp) hne
    rw [h] at hgone hspare
    rw [ha₂] at hspare
    simp only [Record.key, Record.update] at hgone
    rcases m with _ | _ | _ | m
    · obtain ⟨w,hw⟩ := recover_keys hash (ne_of_eq_of_ne hspare (by simp))
      simp at hw
    · obtain ⟨w,hw⟩ := recover_keys hash (ne_of_eq_of_ne hspare (by simp))
      simp [hne] at hw
    · exact absurd (hk₂.symm.trans hgone) (by simp)
    · exact hk₃ (by simpa using hgone)

theorem expire_breaks {k : Str} {n : Int} {l : Record} (hn : 0 < n) (hs : Survives k)
    (hc : '\n' ∉ k) (hm : ¬(Record.expire k n).Matches l) : Breaks hash (.expire k n) l := by
  have hroom : ({k, l.key} : Finset Str).card ≤ max 1 (32 / numShards) := Finset.card_le_two
  have hfresh : live 0 (some ((['x'], none) : Item)) = some (['x'], none) := live_some rfl
  have hk₁ := rebuilt_set hash 32 [] k ['x']
  rw [List.nil_append] at hk₁
  refine ⟨32,[.set k ['x']],by simp [loggable_set hs hc],fun m h => ?_⟩
  have hdead := Record.apply_self hash ⟨0, 0⟩ (.expire k n) (rebuilt hash 32 [.set k ['x']])
  rw [h] at hdead
  simp only [Record.key, Record.update, if_neg (not_lt.mpr hn.le), hk₁, hfresh,
    Option.map_some] at hdead
  rcases m with _ | _ | m
  · obtain ⟨w,hw⟩ := recover_keys hash (ne_of_eq_of_ne hdead (by simp))
    simp at hw
  · have hk := hk₁.symm.trans hdead
    simp at hk
  · rw [List.take_of_length_le (by simp)] at hdead
    by_cases hkey : k = l.key
    · by_cases hp : l.Positive
      · have hself := rebuilt_self hash 32 [.set k ['x']] hp
        rw [← hkey, hk₁, hdead] at hself
        cases l with
        | set k' v' => simp [Record.update] at hself
        | del k' => simp [Record.update] at hself
        | expire k' n' =>
          simp only [Record.update, if_neg (not_lt.mpr (le_of_lt hp)), hfresh, Option.map_some,
            Option.some.injEq, Prod.mk.injEq, true_and, deadlineAfter, zero_add, wrap64,
            Int.bmod_bmod] at hself
          exact hm ⟨hkey,hp,hself⟩
      · rw [rebuilt_rejected hash hp, hk₁] at hdead
        simp at hdead
    · rw [rebuilt_keeps hash hroom _ l (by simp [Record.key]) hkey, hk₁] at hdead
      simp at hdead

theorem unrecoverable_breaks {l : Record} {t : Str} (ht : '\n' ∉ t) (h : ¬Recoverable l t) :
    ∃ rec, (parseCommand t).record = some rec ∧ Breaks hash rec l := by
  simp only [Recoverable, Option.mem_def, not_forall, not_or] at h
  obtain ⟨rec,hrec,hm,hu⟩ := h
  obtain ⟨hpos,htok,-⟩ := record_spec hrec
  have hkey := htok rec.key (by cases rec <;> simp [Record.tokens, Record.key])
  have hc : '\n' ∉ rec.key := fun hc => ht ((parseCommand_args hkey).2 _ hc)
  refine ⟨rec,hrec,?_⟩
  cases rec with
  | set k v => exact set_breaks hash hm
  | del k => exact del_breaks hash (not_not.mp hu) hc hm
  | expire k n => exact expire_breaks hash hpos (not_not.mp hu) hc hm

theorem torn_file {recs : List Record} {file : Str} (h : file <+: aofFile (recs.map Record.line)) :
    (∃ m ≤ recs.length, file = aofFile ((recs.take m).map Record.line)) ∨
    ∃ before l after t, recs = before ++ l :: after ∧
      file = aofFile (before.map Record.line) ++ t ∧ t <+: l.line := by
  obtain ⟨j,t,hj,rfl,ht⟩ := Lines.torn_join '\n' (recs.map Record.line) file h
  rw [List.length_map] at hj
  rcases ht with rfl | ⟨line,hline,ht⟩
  · exact Or.inl ⟨j,hj,by rw [List.append_nil, List.map_take]; rfl⟩
  · rw [List.getElem?_map, Option.map_eq_some_iff] at hline
    obtain ⟨l,hget,rfl⟩ := hline
    obtain ⟨hlt,rfl⟩ := List.getElem?_eq_some_iff.mp hget
    refine Or.inr ⟨recs.take j,recs[j],recs.drop (j + 1),t,?_,by rw [List.map_take]; rfl,ht⟩
    rw [List.getElem_cons_drop, List.take_append_drop]

theorem torn_log_recovers :
    (∀ (maxKeys : Nat) (clock : Nat → Readings) (recs : List Record) (file : Str),
      (∀ rec ∈ recs, rec.Loggable) → file <+: aofFile (recs.map Record.line) →
      (∀ before l after t, recs = before ++ l :: after →
        file = aofFile (before.map Record.line) ++ t → t <+: l.line → Recoverable l t) →
      Restores hash maxKeys clock recs file) ∧
    ∀ (l : Record) (t : Str), l.Loggable → t <+: l.line → ¬Recoverable l t →
      ∃ maxKeys clock before, (∀ rec ∈ before, rec.Loggable) ∧
        aofFile (before.map Record.line) ++ t <+: aofFile ((before ++ [l]).map Record.line) ∧
        ¬Restores hash maxKeys clock (before ++ [l]) (aofFile (before.map Record.line) ++ t) := by
  constructor
  · intro maxKeys clock recs file hl hfile hrec
    rcases torn_file hfile with ⟨m,hm,rfl⟩ | ⟨before,l,after,t,rfl,rfl,ht⟩
    · exact ⟨m,hm,rfl⟩
    · exact restores_of_recoverable hash hl ht (hrec before l after t rfl rfl ht)
  · intro l t hl ht hr
    have hclean : '\n' ∉ t := fun hc => hl.1 (ht.subset hc)
    obtain ⟨rec,hrec,maxKeys,before,hb,hne⟩ := unrecoverable_breaks hash hclean hr
    refine ⟨maxKeys,fun _ => ⟨0, 0⟩,before,hb,?_,?_⟩
    · obtain ⟨u,hu⟩ := ht
      rw [List.map_append, List.map_singleton, aofFile, aofFile, Lines.join, Lines.join,
        List.flatMap_append, List.prefix_append_right_inj, ← hu]
      simp
    · rintro ⟨m,-,h⟩
      have hall : ∀ rec ∈ (before ++ [l]).take m, rec.Loggable := fun rec hm => by
        rcases List.mem_append.mp (List.mem_of_mem_take hm) with hm | hm
        · exact hb rec hm
        · exact List.mem_singleton.mp hm ▸ hl
      rw [replay_torn hash _ _ hb hclean, hrec, replay_recover hash _ _ hall] at h
      exact hne m h

end

def shortLog : List Record := [.set ['k'] "value".toList, .del ['k']]

theorem torn_name_recovers :
    Restores (fun _ => 0) 16 (fun _ => ⟨0, 0⟩) shortLog "SET k value\nDE".toList := by
  refine (torn_log_recovers (fun _ => 0)).1 16 (fun _ => ⟨0, 0⟩) shortLog _ ?_
    (by decide +kernel) ?_
  · intro rec hr
    simp only [shortLog, List.mem_cons, List.not_mem_nil, or_false] at hr
    rcases hr with rfl | rfl
    · exact ⟨by decide +kernel,by decide +kernel,trivial⟩
    · exact ⟨by decide +kernel,by decide +kernel,trivial⟩
  · intro before l after t hr hf ht
    rcases before with _ | ⟨b,_ | ⟨b',bs⟩⟩
    · have hl : l = .set ['k'] "value".toList := (List.cons.inj hr).1.symm
      have ht' : "SET k value\nDE".toList = t := hf
      rw [hl, ← ht'] at ht
      exact absurd ht (by decide +kernel)
    · have hb : b = .set ['k'] "value".toList := (List.cons.inj hr).1.symm
      have ht' : "DE".toList = t := by
        rw [hb] at hf
        have hfile : "SET k value\nDE".toList = aofFile [(Record.set ['k'] "value".toList).line] ++
          "DE".toList := by decide +kernel
        exact List.append_cancel_left (hfile.symm.trans hf)
      intro rec hrec
      have hnone : (parseCommand "DE".toList).record = none := by decide +kernel
      rw [← ht', hnone] at hrec
      cases hrec
    · simp [shortLog] at hr

theorem torn_value_replayed :
    "SET k va".toList <+: aofFile (shortLog.map Record.line) ∧
    (replay (fun _ => 0) (fun _ => ⟨0, 0⟩) (some "SET k va".toList)
      (.create 16)).storage.lookup (fun _ => 0) ['k'] = some ("va".toList, none) ∧
    ¬Restores (fun _ => 0) 16 (fun _ => ⟨0, 0⟩) shortLog "SET k va".toList := by
  refine ⟨by decide +kernel,by decide +kernel,?_⟩
  rintro ⟨m,hm,h⟩
  have hk := congrArg (fun st => st.lookup (fun _ => 0) ['k']) h
  have hm' : m = 0 ∨ m = 1 ∨ m = 2 := by
    simp only [shortLog, List.length_cons, List.length_nil] at hm
    omega
  revert hk
  rcases hm' with rfl | rfl | rfl <;> decide +kernel

end CacheForge
