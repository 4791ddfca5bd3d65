import Mathlib.Data.List.Basic
import Mathlib.Tactic

namespace Lines

variable {A : Type} (sep : A)

def join (ls : List (List A)) : List A := ls.flatMap (· ++ [sep])

@[simp] theorem join_nil : join sep [] = [] := rfl

@[simp] theorem join_cons (l : List A) (ls : List (List A)) :
    join sep (l :: ls) = l ++ sep :: join sep ls := by
  simp [join]

theorem join_append (ls ms : List (List A)) : join sep (ls ++ ms) = join sep ls ++ join sep ms :=
  List.flatMap_append

theorem torn_join (ls : List (List A)) (p : List A) (h : p <+: join sep ls) :
    ∃ j t, j ≤ ls.length ∧ p = join sep (ls.take j) ++ t ∧
      (t = [] ∨ ∃ l, ls[j]? = some l ∧ t <+: l) := by
  induction ls generalizing p with
  | nil =>
    rw [join_nil, List.prefix_nil] at h
    exact ⟨0,[],by simp,by simp [h],Or.inl rfl⟩
  | cons l ls ih =>
    rw [join_cons] at h
    rcases List.prefix_or_prefix_of_prefix h (List.prefix_append l _) with hp | ⟨q,rfl⟩
    · exact ⟨0,p,by simp,by simp,Or.inr ⟨l,by simp,hp⟩⟩
    · rw [List.prefix_append_right_inj] at h
      rcases List.prefix_cons_iff.mp h with rfl | ⟨q',rfl,hq'⟩
      · exact ⟨0,l,by simp,by simp,Or.inr ⟨l,by simp,List.prefix_rfl⟩⟩
      · obtain ⟨j,t,hj,rfl,ht⟩ := ih q' hq'
        exact ⟨j+1,t,by simpa using hj,by simp,by simpa using ht⟩

theorem join_ends (ls : List (List A)) {t : List A} (ht : sep ∉ t) :
    t = [] ↔ ∀ c ∈ (join sep ls ++ t).getLast?, c = sep := by
  constructor
  · rintro rfl c hc
    cases ls using List.reverseRecOn with
    | nil => simp at hc
    | append_singleton ls l => simpa [join, eq_comm] using hc
  · intro h
    by_contra hne
    have hlast : t.getLast hne = sep :=
      h _ (by simp [List.getLast?_append, List.getLast?_eq_some_getLast hne])
    exact ht (hlast ▸ List.getLast_mem hne)

def leftover : List A → List (List A)
  | [] => []
  | t => [t]

theorem leftover_cons (c : A) (cs : List A) : leftover (c :: cs) = [c :: cs] := rfl

variable [DecidableEq A]

def split : List A → List (List A) × List A
  | [] => ([], [])
  | c :: cs =>
      if c = sep then ([] :: (split cs).1, (split cs).2)
      else match (split cs).1 with
        | [] => ([], c :: (split cs).2)
        | l :: ls => ((c :: l) :: ls, (split cs).2)

theorem split_clean (l : List A) (h : sep ∉ l) : split sep l = ([], l) := by
  induction l with
  | nil => rfl
  | cons c cs ih =>
    simp only [List.mem_cons, not_or] at h
    simp [split, ih h.2, Ne.symm h.1]

theorem split_line (l rest : List A) (h : sep ∉ l) :
    split sep (l ++ sep :: rest) = (l :: (split sep rest).1, (split sep rest).2) := by
  induction l with
  | nil => simp [split]
  | cons c cs ih =>
    simp only [List.mem_cons, not_or] at h
    simp [split, ih h.2, Ne.symm h.1]

theorem split_first {s : List A} (h : sep ∈ s) :
    split sep s = (s.takeWhile (fun c => c ≠ sep) ::
        (split sep (s.dropWhile (fun c => c ≠ sep)).tail).1,
      (split sep (s.dropWhile (fun c => c ≠ sep)).tail).2) := by
  induction s with
  | nil => simp at h
  | cons c cs ih =>
    by_cases hc : c = sep
    · simp [split, hc]
    · have hcs : sep ∈ cs := (List.mem_cons.mp h).resolve_left (Ne.symm hc)
      simp [split, hc, ih hcs]

theorem split_spec (s : List A) :
    join sep (split sep s).1 ++ (split sep s).2 = s ∧
      (∀ l ∈ (split sep s).1, sep ∉ l) ∧ sep ∉ (split sep s).2 := by
  induction s with
  | nil => simp [split]
  | cons c cs ih =>
    obtain ⟨hj,hl,ht⟩ := ih
    by_cases hc : c = sep
    · refine ⟨by simp [split, hc, hj],?_,by simpa [split, hc] using ht⟩
      simpa [split, hc] using hl
    · cases hs : (split sep cs).1 with
      | nil =>
        rw [hs] at hj
        exact ⟨by simpa [split, hc, hs] using hj,by simp [split, hc, hs],
          by simp [split, hc, hs, ht, Ne.symm hc]⟩
      | cons l ls =>
        rw [hs] at hj hl
        refine ⟨by simpa [split, hc, hs] using hj,?_,by simpa [split, hc, hs] using ht⟩
        intro m hm
        simp only [split, hc, hs, if_false, List.mem_cons] at hm
        rcases hm with rfl | hm
        · simp [Ne.symm hc, hl l (by simp)]
        · exact hl m (by simp [hm])

theorem split_join (ls : List (List A)) (t : List A) (hl : ∀ l ∈ ls, sep ∉ l) (ht : sep ∉ t) :
    split sep (join sep ls ++ t) = (ls, t) := by
  induction ls with
  | nil => simpa using split_clean sep t ht
  | cons l ls ih =>
    have hrest := ih (fun m hm => hl m (by simp [hm]))
    simp [split_line sep l _ (hl l (by simp)), hrest]

theorem split_append (s t : List A) :
    split sep (s ++ t) = ((split sep s).1 ++ (split sep ((split sep s).2 ++ t)).1,
      (split sep ((split sep s).2 ++ t)).2) := by
  obtain ⟨hs,hl,-⟩ := split_spec sep s
  obtain ⟨ht,hm,hr⟩ := split_spec sep ((split sep s).2 ++ t)
  have hjoin : s ++ t = join sep ((split sep s).1 ++ (split sep ((split sep s).2 ++ t)).1) ++
      (split sep ((split sep s).2 ++ t)).2 := by
    rw [join_append, List.append_assoc, ht, ← List.append_assoc, hs]
  rw [hjoin]
  refine split_join sep _ _ (fun l h => ?_) hr
  exact (List.mem_append.mp h).elim (hl l) (hm l)

end Lines
