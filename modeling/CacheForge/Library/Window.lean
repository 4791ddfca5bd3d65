import Mathlib.Tactic

namespace Window

variable {A : Type} (w : Nat) (bad : A → Bool)

def good (l : List A) : List A := l.filter (fun x => !bad x)

def pass (l : List A) : List A := good bad (l.take w) ++ l.drop w

def Clean (l : List A) : Prop := ∀ x ∈ l, bad x = false

def Reached (l : List A) : Prop :=
  ∀ pre x post, l = pre ++ x :: post → bad x = true → (good bad pre).length < w

variable {w bad}

theorem good_append (l m : List A) : good bad (l ++ m) = good bad l ++ good bad m :=
  List.filter_append ..

theorem good_good (l : List A) : good bad (good bad l) = good bad l := by
  simp [good, List.filter_filter]

theorem good_clean (l : List A) : Clean bad (good bad l) := by
  intro x hx
  simpa [good] using (List.mem_filter.mp hx).2

theorem clean_good {l : List A} (h : Clean bad l) : good bad l = l :=
  List.filter_eq_self.mpr fun x hx => by simp [h x hx]

theorem pass_sublist (l : List A) : (pass w bad l).Sublist l := by
  have h := (List.filter_sublist (p := fun x => !bad x) (l := l.take w)).append_right (l.drop w)
  rwa [List.take_append_drop] at h

theorem pass_split {l pre post : List A} {x : A} (h : pass w bad l = pre ++ x :: post)
    (hx : bad x = true) : ∃ m, pre = good bad (l.take w) ++ m ∧ l = l.take w ++ m ++ x :: post := by
  obtain ⟨m,hpre,hdrop⟩ : ∃ m, pre = good bad (l.take w) ++ m ∧ l.drop w = m ++ x :: post := by
    rcases List.append_eq_append_iff.mp h with ⟨m,hpre,hdrop⟩ | ⟨m,hgood,hpost⟩
    · exact ⟨m,hpre,hdrop⟩
    · cases m with
      | nil => exact ⟨[],by simpa using hgood.symm,by simpa using hpost.symm⟩
      | cons y m =>
        obtain ⟨rfl,-⟩ := List.cons.inj hpost
        have hg : bad x = false := good_clean (l.take w) x (by simp [hgood])
        simp [hx] at hg
  exact ⟨m,hpre,by rw [List.append_assoc, ← hdrop, List.take_append_drop]⟩

theorem Reached.next {l : List A} (h : Reached w bad l) : Reached w bad (pass w bad l) := by
  intro pre x post hsplit hx
  obtain ⟨m,rfl,hl⟩ := pass_split hsplit hx
  have hlen := h _ x post hl hx
  rwa [good_append, good_good, ← good_append]

theorem Reached.shrinks {l : List A} (h : Reached w bad l) (hb : ¬Clean bad l) :
    (pass w bad l).length < l.length := by
  cases hf : l.find? bad with
  | none =>
    refine absurd (fun x hx => ?_) hb
    simpa using List.find?_eq_none.mp hf x hx
  | some x =>
    obtain ⟨hx,pre,post,hl,hpre⟩ := List.find?_eq_some_iff_append.mp hf
    have hw := h pre x post hl hx
    rw [clean_good fun y hy => by simpa using hpre y hy] at hw
    have hmem : x ∈ l.take w := by
      rw [hl, List.take_append, List.mem_append]
      obtain ⟨n,hn⟩ : ∃ n, w - pre.length = n + 1 := ⟨w - pre.length - 1,by omega⟩
      exact Or.inr (by simp [hn])
    have hless : (good bad (l.take w)).length < (l.take w).length :=
      List.length_filter_lt_length_iff_exists.mpr ⟨x,hmem,by simp [hx]⟩
    calc (pass w bad l).length = (good bad (l.take w)).length + (l.drop w).length :=
          List.length_append
      _ < (l.take w).length + (l.drop w).length := Nat.add_lt_add_right hless _
      _ = l.length := by rw [← List.length_append, List.take_append_drop]

theorem stuck_pass {l pre post : List A} {x : A} (hl : l = pre ++ x :: post)
    (hw : w ≤ (good bad pre).length) :
    ∃ pre', pass w bad l = pre' ++ x :: post ∧ good bad pre' = good bad pre := by
  have hlen : w ≤ pre.length := hw.trans (List.length_filter_le ..)
  refine ⟨pass w bad pre,?_,?_⟩
  · rw [hl, pass, pass, List.take_append_of_le_length hlen, List.drop_append_of_le_length hlen,
      List.append_assoc]
  · rw [pass, good_append, good_good, ← good_append, List.take_append_drop]

theorem stuck_passes {l pre post : List A} {x : A} (hl : l = pre ++ x :: post)
    (hw : w ≤ (good bad pre).length) (n : Nat) :
    ∃ pre', (pass w bad)^[n] l = pre' ++ x :: post ∧ good bad pre' = good bad pre := by
  induction n with
  | zero => exact ⟨pre,hl,rfl⟩
  | succ n ih =>
    obtain ⟨pre',hl',hg⟩ := ih
    obtain ⟨pre'',hl'',hg'⟩ := stuck_pass hl' (hg ▸ hw)
    rw [Function.iterate_succ_apply']
    exact ⟨pre'',hl'',hg'.trans hg⟩

theorem eventually_clean_iff (l : List A) :
    (∃ n, Clean bad ((pass w bad)^[n] l)) ↔ Reached w bad l := by
  constructor
  · rintro ⟨n,hn⟩ pre x post hl hx
    by_contra hw
    obtain ⟨pre',hl',-⟩ := stuck_passes hl (not_lt.mp hw) n
    have hclean := hn x (by simp [hl'])
    simp [hx] at hclean
  · intro h
    induction hlen : l.length using Nat.strong_induction_on generalizing l with
    | _ m ih =>
      by_cases hc : Clean bad l
      · exact ⟨0,hc⟩
      · obtain ⟨n,hn⟩ := ih _ (hlen ▸ h.shrinks hc) (pass w bad l) h.next rfl
        exact ⟨n + 1,hn⟩

theorem mem_pass {l : List A} {x : A} (h : l.Nodup) :
    x ∈ pass w bad l ↔ x ∈ l ∧ (x ∈ l.take w → bad x = false) := by
  rw [← List.take_append_drop w l, List.nodup_append] at h
  have hdisj : x ∈ l.drop w → x ∉ l.take w := fun hd ht => h.2.2 x ht x hd rfl
  have hmem : x ∈ l ↔ x ∈ l.take w ∨ x ∈ l.drop w := by
    rw [← List.mem_append, List.take_append_drop]
  simp only [pass, good, List.mem_append, List.mem_filter, Bool.not_eq_true', hmem]
  tauto

theorem filter_pass {l : List A} (h : l.Nodup) {p : A → Bool}
    (hp : ∀ x ∈ l, p x = true ↔ x ∈ pass w bad l) : l.filter p = pass w bad l := by
  have hp' : ∀ x ∈ l, p x = true ↔ (x ∈ l.take w → bad x = false) := fun x hx => by
    rw [hp x hx, mem_pass h, and_iff_right hx]
  rw [← List.take_append_drop w l, List.nodup_append] at h
  conv_lhs => rw [← List.take_append_drop w l, List.filter_append]
  rw [pass, good]
  congr 1
  · refine List.filter_congr fun x hx => ?_
    rw [Bool.eq_iff_iff, hp' x (List.mem_of_mem_take hx)]
    simp [hx]
  · refine List.filter_eq_self.mpr fun x hx => (hp' x (List.mem_of_mem_drop hx)).mpr fun ht => ?_
    exact absurd rfl (h.2.2 x ht x hx)

end Window
