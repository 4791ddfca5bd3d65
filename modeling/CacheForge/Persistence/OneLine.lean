import CacheForge.Persistence.Append
import CacheForge.Protocol.Replies

namespace CacheForge

def Clean (s : Str) : Prop := '\n' ∉ s

instance (s : Str) : Decidable (Clean s) := inferInstanceAs (Decidable (¬_))

def OneLine (s : Str) : Prop := ∃ body, Clean body ∧ s = body ++ ['\n']

theorem clean_append {s t : Str} : Clean (s ++ t) ↔ Clean s ∧ Clean t := by
  simp [Clean]

theorem stdToString_clean (n : Int) : Clean (stdToString n) := by
  intro h
  have hs := stdToString_not_isspace h
  cases hs

theorem valueResponse_oneLine {v : Str} (h : Clean v) : OneLine (valueResponse v) :=
  ⟨'$' :: v,by simpa [Clean] using h,rfl⟩

theorem integerResponse_oneLine (n : Int) : OneLine (integerResponse n) :=
  ⟨':' :: stdToString (wrap32 n),by simpa [Clean] using stdToString_clean (wrap32 n),rfl⟩

theorem errorResponse_oneLine {message : String} (h : Clean message.toList) :
    OneLine (errorResponse message) :=
  ⟨"-ERR ".toList ++ message.toList,by simpa [Clean] using h,rfl⟩

theorem statsText_clean (now : Int) (d : Dispatcher) : Clean (d.statsText now) := by
  unfold Dispatcher.statsText
  simp only [clean_append, stdToString_clean, and_true]
  refine ⟨⟨⟨⟨⟨⟨⟨⟨?_,?_⟩,?_⟩,?_⟩,?_⟩,?_⟩,?_⟩,?_⟩,?_⟩ <;> decide

def ShardedStorage.Values (P : Str → Prop) (st : ShardedStorage) : Prop :=
  ∀ i x item, (st.shards i).lookup x = some item → P item.1

theorem Record.update_value {r : Readings} {rec : Record} {x : Option Item} {i : Item}
    (h : rec.update r x = some i) : (∃ j, x = some j ∧ j.1 = i.1) ∨ i.1 ∈ rec.tokens := by
  cases rec with
  | set k v =>
    cases h
    exact Or.inr (by simp [tokens])
  | del k => cases h
  | expire k n =>
    refine Or.inl ?_
    simp only [update] at h
    split at h
    · exact ⟨i,h,rfl⟩
    · obtain ⟨j,hj,rfl⟩ := Option.map_eq_some_iff.mp h
      exact ⟨j,live_eq_some hj,rfl⟩

namespace ShardedStorage.Values

variable {P : Str → Prop} {hash : Str → Nat} {st st' : ShardedStorage}

theorem create (maxKeys : Nat) : (ShardedStorage.create maxKeys).Values P := by
  intro i x item h
  cases h

theorem quiet {now : Int} (h : st.Values P) (hq : Quiet now st st') : st'.Values P := by
  intro i x item hi
  rcases hq.shard i x with hs | ⟨hs,-⟩
  · exact h i x item (hs ▸ hi)
  · cases hs.symm.trans hi

theorem apply (h : st.Values P) (r : Readings) {rec : Record} (hrec : ∀ t ∈ rec.tokens, P t) :
    (rec.apply hash r st).Values P := by
  intro i x item hi
  rcases rec.apply_shard hash r st i x with hs | ⟨-,hs,-⟩
  · rw [hs] at hi
    split at hi
    · rcases Record.update_value hi with ⟨j,hj,hval⟩ | hmem
      · exact hval ▸ h i x j hj
      · exact hrec _ hmem
    · exact h i x item hi
  · cases hs.symm.trans hi

theorem applies {ys : List (Readings × Record)} (h : st.Values P)
    (hys : ∀ y ∈ ys, ∀ t ∈ y.2.tokens, P t) :
    (ys.foldl (fun st y => y.2.apply hash y.1 st) st).Values P := by
  induction ys generalizing st with
  | nil => exact h
  | cons y ys ih => exact ih (h.apply y.1 (hys y (by simp))) fun z hz => hys z (by simp [hz])

theorem effect (h : st.Values P) (r : Readings) {cmd : Command} (hargs : ∀ a ∈ cmd.args, P a) :
    (effect hash r cmd st).1.Values P := by
  have he := effect_of hash r st cmd
  cases hr : CacheForge.effect hash r cmd st with
  | mk st' o =>
    rw [hr] at he
    cases o with
    | none => exact h.quiet he.quiet
    | some rec =>
      rw [he.record]
      exact h.apply r fun t ht => hargs t (he.tokens t ht).2

end ShardedStorage.Values

theorem getlines_clean {file l : Str} (h : l ∈ getlines file) : Clean l := by
  obtain ⟨-,hlines,hrest⟩ := Lines.split_spec '\n' file
  rw [getlines_split, List.mem_append] at h
  rcases h with h | h
  · exact hlines l h
  · cases hs : (Lines.split '\n' file).2 with
    | nil => simp [hs, Lines.leftover] at h
    | cons c cs =>
      rw [hs, Lines.leftover_cons, List.mem_singleton] at h
      rw [h, ← hs]
      exact hrest

theorem parseCommand_clean {text a : Str} (h : Clean text) (ha : a ∈ (parseCommand text).args) :
    Clean a := fun hc => h ((parseCommand_args ha).2 _ hc)

theorem replay_values (hash : Str → Nat) (clock : Nat → Readings) (file : Option Str)
    {st : ShardedStorage} (h : st.Values Clean) :
    (replay hash clock file st).storage.Values Clean := by
  cases file with
  | none => exact h
  | some file =>
    rw [replay_changes]
    refine h.applies fun y hy t ht => ?_
    have hrec : y.2 ∈ applied file := changes_records clock file ▸ List.mem_map_of_mem hy
    obtain ⟨l,hl,hread⟩ := List.mem_filterMap.mp hrec
    exact parseCommand_clean (getlines_clean hl) ((record_spec hread).2.1 t ht)

section

variable {hash : Str → Nat} {d : Dispatcher}

theorem getReply_oneLine {found : Option Str} (h : ∀ v ∈ found, Clean v) :
    OneLine (getReply found) := by
  rw [getReply_value]
  refine valueResponse_oneLine ?_
  cases found with
  | none => decide
  | some v => exact h v rfl

theorem dispatch_oneLine (h : d.storage.Values Clean) (r : Readings) (cmd : Command) :
    OneLine (d.dispatch hash r cmd).1 := by
  have hreply := dispatch_reply hash r d cmd
  generalize d.dispatch hash r cmd = out at hreply ⊢
  cases hreply with
  | pong => exact ⟨"+PONG".toList,by decide,rfl⟩
  | ok => exact ⟨"+OK".toList,by decide,rfl⟩
  | number n => exact integerResponse_oneLine n
  | stats d' => exact valueResponse_oneLine (statsText_clean _ _)
  | refused message hm => exact errorResponse_oneLine hm
  | found k =>
    refine getReply_oneLine fun v hv => ?_
    rw [found_live, Option.mem_def, Option.map_eq_some_iff] at hv
    obtain ⟨i,hi,rfl⟩ := hv
    exact h _ k i (live_eq_some hi)

end

namespace Request

def text? : Request → Option Str
  | line _ text => some text
  | sweep _ _ _ => none

end Request

def Dispatcher.response (hash : Str → Nat) (d : Dispatcher) : Request → Option Str
  | .line r text => some (d.dispatch hash r (parseCommand text)).1
  | .sweep _ _ _ => none

def repliesTo (hash : Str → Nat) : List Request → Dispatcher → List Str
  | [], _ => []
  | q :: qs, d => (d.response hash q).toList ++ repliesTo hash qs (d.handle hash q)

theorem repliesTo_oneLine (hash : Str → Nat) {qs : List Request} {d : Dispatcher}
    (hd : d.storage.Values Clean) (hqs : ∀ q ∈ qs, ∀ text ∈ q.text?, Clean text) :
    (∀ reply ∈ repliesTo hash qs d, OneLine reply) ∧
      (repliesTo hash qs d).length = (qs.filterMap Request.text?).length := by
  induction qs generalizing d with
  | nil => exact ⟨by simp [repliesTo],rfl⟩
  | cons q qs ih =>
    have hrest : ∀ q ∈ qs, ∀ text ∈ q.text?, Clean text := fun p hp => hqs p (by simp [hp])
    cases q with
    | line r text =>
      have htext : Clean text := hqs (.line r text) (by simp) text rfl
      have hnext : (d.handle hash (.line r text)).storage.Values Clean := by
        rw [Dispatcher.handle, (dispatch_effect hash r (parseCommand text) d).1]
        exact hd.effect r fun a ha => parseCommand_clean htext ha
      obtain ⟨hall,hlen⟩ := ih hnext hrest
      refine ⟨fun reply hr => ?_,by simp [repliesTo, Dispatcher.response, Request.text?, hlen]⟩
      rcases List.mem_append.mp hr with hr | hr
      · rw [Dispatcher.response, Option.toList_some, List.mem_singleton] at hr
        exact hr ▸ dispatch_oneLine hd r (parseCommand text)
      · exact hall reply hr
    | sweep now i order =>
      have hnext : (d.handle hash (.sweep now i order)).storage.Values Clean := by
        obtain ⟨he,hx⟩ := Shard.sweepShard_spec now order (d.storage.shards i)
        exact hd.quiet (Quiet.locked he hx)
      obtain ⟨hall,hlen⟩ := ih hnext hrest
      exact ⟨hall,hlen⟩

theorem oneLine_split {ls : List Str} (h : ∀ l ∈ ls, OneLine l) :
    Lines.split '\n' ls.flatten = (ls.map List.dropLast, []) := by
  have hjoin : ls.flatten = Lines.join '\n' (ls.map List.dropLast) ++ [] := by
    induction ls with
    | nil => rfl
    | cons l ls ih =>
      obtain ⟨body,-,rfl⟩ := h l (by simp)
      have hrest := ih fun m hm => h m (by simp [hm])
      simpa using hrest
  rw [hjoin]
  refine Lines.split_join '\n' _ _ (fun l hl => ?_) List.not_mem_nil
  obtain ⟨m,hm,rfl⟩ := List.mem_map.mp hl
  obtain ⟨body,hbody,rfl⟩ := h m hm
  rw [List.dropLast_concat]
  exact hbody

theorem every_reply_one_line (hash : Str → Nat) (maxKeys : Nat) (clock : Nat → Readings)
    (file : Option Str) (aofWriter : Option AOFWriter) (startTime : Int) (qs : List Request)
    (hqs : ∀ q ∈ qs, ∀ text ∈ q.text?, '\n' ∉ text) :
    let storage := (replay hash clock file (.create maxKeys)).storage
    let replies := repliesTo hash qs (.create storage aofWriter startTime)
    (∀ reply ∈ replies, ∃ body, '\n' ∉ body ∧ reply = body ++ ['\n']) ∧
      Lines.split '\n' replies.flatten = (replies.map List.dropLast, []) ∧
      replies.length = (qs.filterMap Request.text?).length := by
  intro storage replies
  have hvalues := replay_values hash clock file (ShardedStorage.Values.create maxKeys)
  obtain ⟨hall,hlen⟩ := repliesTo_oneLine hash (d := .create storage aofWriter startTime) hvalues
    hqs
  exact ⟨hall,oneLine_split hall,hlen⟩

def mixedRequests : List Request :=
  [.line ⟨0, 0⟩ "GET k".toList, .sweep 1 (shardIndex (fun _ => 0) ['k']) [['k']],
    .line ⟨2, 2⟩ "SET k \"a b\"".toList, .line ⟨3, 3⟩ "STATS".toList]

theorem mixed_requests_one_line :
    let storage := (replay (fun _ => 0) (fun _ => ⟨0, 0⟩) (some "SET k v\nDEL".toList)
      (.create 48)).storage
    let replies := repliesTo (fun _ => 0) mixedRequests (.create storage none 0)
    (∀ q ∈ mixedRequests, ∀ text ∈ q.text?, '\n' ∉ text) ∧ replies.length = 3 ∧
      Lines.split '\n' replies.flatten = (replies.map List.dropLast, []) := by
  have hclean : ∀ q ∈ mixedRequests, ∀ text ∈ q.text?, '\n' ∉ text := by decide
  obtain ⟨-,hsplit,hlen⟩ := every_reply_one_line (fun _ => 0) 48 (fun _ => ⟨0, 0⟩)
    (some "SET k v\nDEL".toList) none 0 mixedRequests hclean
  exact ⟨hclean,hlen,hsplit⟩

end CacheForge
