import CacheForge.Protocol.Parser

namespace CacheForge

def Boundary (s : Str) : Prop := ∀ c ∈ s.head?, isspace c = true

theorem boundary_space (s : Str) : Boundary (' ' :: s) := by simp [Boundary, isspace]

theorem Boundary.rdropWhile {s : Str} (h : Boundary s) (p : Char → Bool) :
    Boundary (s.rdropWhile p) := by
  obtain ⟨u,hu⟩ := List.rdropWhile_prefix p s
  intro c hc
  refine h c ?_
  rw [← hu, List.head?_append, Option.mem_def.mp hc]
  rfl

theorem tokenize_blank {s : Str} (h : s.dropWhile isspace = []) : tokenize s = [] := by
  rw [tokenize]
  split
  · rfl
  · rename_i c cs hc
    simp [h] at hc

theorem tokenize_next {s cs : Str} {c : Char} (h : s.dropWhile isspace = c :: cs) :
    tokenize s = pushToken (nextToken (c :: cs)).1 (tokenize (nextToken (c :: cs)).2) := by
  conv_lhs => rw [tokenize]
  split
  · rename_i hn
    simp [h] at hn
  · rename_i d ds hd
    rw [h] at hd
    cases hd
    rfl

theorem tokenize_skip {s t : Str} (h : s.dropWhile isspace = t.dropWhile isspace) :
    tokenize s = tokenize t := by
  cases ht : t.dropWhile isspace with
  | nil => rw [tokenize_blank ht, tokenize_blank (h.trans ht)]
  | cons c cs => rw [tokenize_next ht, tokenize_next (h.trans ht)]

theorem tokenize_space {c : Char} (s : Str) (hc : isspace c = true) :
    tokenize (c :: s) = tokenize s :=
  tokenize_skip (by simp [hc])

theorem bareToken_append {t rest : Str} (ht : ∀ c ∈ t, isspace c = false) (hb : Boundary rest) :
    bareToken (t ++ rest) = (t, rest) := by
  obtain ⟨htake,hdrop⟩ := span_run (p := fun c => !isspace c) (fun c hc => by simp [ht c hc])
    (fun c hc => by simp [hb c hc])
  rw [bareToken, htake, hdrop]

theorem nextToken_bare {c : Char} {cs : Str} (hc : c ≠ '"') :
    nextToken (c :: cs) = bareToken (c :: cs) := by
  unfold nextToken
  split
  · rename_i ds h
    cases h
    exact absurd rfl hc
  · rfl

theorem tokenize_bare {t rest : Str} (hne : t ≠ []) (ht : ∀ c ∈ t, isspace c = false)
    (hq : t.head? ≠ some '"') (hb : Boundary rest) :
    tokenize (t ++ rest) = t :: tokenize rest := by
  cases t with
  | nil => exact absurd rfl hne
  | cons c cs =>
    have hc : isspace c = false := ht c (by simp)
    have hdrop : ((c :: cs) ++ rest).dropWhile isspace = c :: (cs ++ rest) := by simp [hc]
    have hcq : c ≠ '"' := fun h => hq (by simp [h])
    rw [tokenize_next hdrop, nextToken_bare hcq]
    have hb' := bareToken_append ht hb
    rw [List.cons_append] at hb'
    rw [hb']
    simp [pushToken]

theorem quotedToken_mem (s : Str) :
    (∀ c ∈ (quotedToken s).1, c ∈ s) ∧ (∀ c ∈ (quotedToken s).2, c ∈ s) := by
  fun_induction quotedToken s with
  | case1 => simp
  | case2 => simp
  | case3 c cs ih => grind
  | case4 cs => exact ⟨by simp,fun c hc => List.mem_cons_of_mem _ hc⟩
  | case5 c cs _ _ _ ih => grind

theorem nextToken_mem (s : Str) :
    (∀ c ∈ (nextToken s).1, c ∈ s) ∧ (∀ c ∈ (nextToken s).2, c ∈ s) := by
  unfold nextToken
  split
  · rename_i cs
    have h := quotedToken_mem cs
    exact ⟨fun c hc => List.mem_cons_of_mem _ (h.1 c hc),
      fun c hc => List.mem_cons_of_mem _ (h.2 c hc)⟩
  · exact ⟨fun c hc => (List.takeWhile_prefix _).subset hc,
      fun c hc => (List.dropWhile_suffix _).subset hc⟩

theorem mem_pushToken {t u : Str} {ts : List Str} (h : u ∈ pushToken t ts) :
    (u = t ∧ t ≠ []) ∨ u ∈ ts := by
  unfold pushToken at h
  split at h
  · exact Or.inr h
  · rename_i hne
    rcases List.mem_cons.mp h with rfl | h
    · exact Or.inl ⟨rfl,hne⟩
    · exact Or.inr h

theorem tokenize_token {s t : Str} (h : t ∈ tokenize s) : t ≠ [] ∧ ∀ c ∈ t, c ∈ s := by
  induction s using tokenize.induct with
  | case1 s hs => simp [tokenize_blank hs] at h
  | case2 s c cs hs ih =>
    rw [tokenize_next hs] at h
    have hsub : ∀ d ∈ c :: cs, d ∈ s := fun d hd =>
      (List.dropWhile_suffix isspace).subset (hs ▸ hd)
    have hm := nextToken_mem (c :: cs)
    rcases mem_pushToken h with ⟨rfl,hne⟩ | hin
    · exact ⟨hne,fun d hd => hsub d (hm.1 d hd)⟩
    · obtain ⟨hne,hall⟩ := ih hin
      exact ⟨hne,fun d hd => hsub d (hm.2 d (hall d hd))⟩

theorem first_token_bare {s t : Str} {ts : List Str}
    (hq : (s.dropWhile isspace).head? ≠ some '"') (h : tokenize s = t :: ts) :
    ∀ c ∈ t, isspace c = false := by
  cases hs : s.dropWhile isspace with
  | nil => simp [tokenize_blank hs] at h
  | cons c cs =>
    have hc : isspace c = false := dropWhile_head hs
    have hcq : c ≠ '"' := fun he => hq (by simp [hs, he])
    have hne : (bareToken (c :: cs)).1 ≠ [] := by simp [bareToken, hc]
    rw [tokenize_next hs, nextToken_bare hcq, pushToken, if_neg hne] at h
    obtain ⟨rfl,-⟩ := List.cons.inj h
    intro d hd
    simpa using List.mem_takeWhile_imp hd

theorem rdropWhile_solid {p : Char → Bool} {s : Str} (rest : Str)
    (h : ∀ c ∈ s.getLast?, p c = false) (hne : s ≠ []) :
    (s ++ rest).rdropWhile p = s ++ rest.rdropWhile p := by
  have hs : s.reverse.dropWhile p = s.reverse := by
    obtain ⟨l,a,rfl⟩ : ∃ l a, s = l ++ [a] := ⟨_,_,(List.dropLast_append_getLast hne).symm⟩
    have ha : p a = false := h a (by simp)
    simp [ha]
  simp only [List.rdropWhile, List.reverse_append, List.dropWhile_append]
  split
  · rename_i hr
    rw [List.isEmpty_iff] at hr
    simp [hr, hs]
  · simp

theorem rdropWhile_stays {p : Char → Bool} {s : Str} (h : ∀ c ∈ s.getLast?, p c = false)
    (hne : s ≠ []) : s.rdropWhile p = s := by
  simpa using rdropWhile_solid [] h hne

theorem parseCommand_named (name body : Str) (hne : name ≠ [])
    (hn : ∀ c ∈ name, isspace c = false) (hq : '"' ∉ name) :
    parseCommand (name ++ ' ' :: body) =
      commandOf (name :: tokenize ((' ' :: body).rdropWhile isspace)) := by
  have hlast : ∀ c ∈ name.getLast?, isspace c = false := fun c hc =>
    hn c (List.mem_of_mem_getLast? hc)
  have hdrop : (name ++ ' ' :: body).dropWhile isspace = name ++ ' ' :: body := by
    cases name with
    | nil => exact absurd rfl hne
    | cons c cs => simp [hn c (by simp)]
  have hb := (boundary_space body).rdropWhile isspace
  have hhead : name.head? ≠ some '"' := fun h => hq (List.mem_of_mem_head? h)
  simp only [parseCommand, trimCommand, hdrop, rdropWhile_solid _ hlast hne,
    tokenize_bare hne hn hhead hb]
  simp [hne]

theorem takeArgs_mem {n : Nat} {ts : List Str} {a : Str} (h : a ∈ takeArgs n ts) : a ∈ ts := by
  unfold takeArgs at h
  split at h
  · exact List.mem_of_mem_drop (List.mem_of_mem_take h)
  · simp at h

theorem commandOf_args {ts : List Str} {a : Str} (h : a ∈ (commandOf ts).args) : a ∈ ts := by
  unfold commandOf at h
  split at h
  · simp at h
  · simp only at h
    repeat' split at h
    all_goals first
      | exact takeArgs_mem h
      | simp at h

theorem parseCommand_args {s a : Str} (h : a ∈ (parseCommand s).args) :
    a ≠ [] ∧ ∀ c ∈ a, c ∈ s := by
  simp only [parseCommand] at h
  split at h
  · simp at h
  · obtain ⟨hne,hall⟩ := tokenize_token (commandOf_args h)
    refine ⟨hne,fun c hc => ?_⟩
    have htrim := (List.rdropWhile_prefix isspace (s.dropWhile isspace)).subset (hall c hc)
    exact (List.dropWhile_suffix isspace).subset htrim

end CacheForge
