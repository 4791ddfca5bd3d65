import Mathlib.Tactic

structure Machine (S E O : Type) where
  step : S → E → Option (S × List O)

namespace Machine

variable {S E O : Type} (M : Machine S E O)

inductive Run (P : S → E → Prop) (s₀ : S) : List E → S → List O → Prop
  | nil : Run P s₀ [] s₀ []
  | snoc {es s os e t o} (h : Run P s₀ es s os) (guard : P s e)
      (hstep : M.step s e = some (t, o)) : Run P s₀ (es ++ [e]) t (os ++ o)

abbrev anyStep (_ : S) (_ : E) : Prop := True

def quiet (x : Option S) : Option (S × List O) := x.map (fun s => (s, []))

theorem quiet_some {x : Option S} {t : S} {o : List O} (h : quiet x = some (t, o)) :
    x = some t ∧ o = [] := by
  cases x with
  | none => cases h
  | some s =>
    cases h
    exact ⟨rfl,rfl⟩

variable {M}

theorem Run.invariant {P : S → E → Prop} {s₀ : S} (I : S → List O → Prop) (h₀ : I s₀ [])
    (hstep : ∀ s os e t o, I s os → P s e → M.step s e = some (t, o) → I t (os ++ o))
    {es : List E} {s : S} {os : List O} (h : M.Run P s₀ es s os) : I s os := by
  induction h with
  | nil => exact h₀
  | snoc _ guard hs ih => exact hstep _ _ _ _ _ ih guard hs

theorem Run.component {S' E' O' : Type} {N : Machine S' E' O'} {P : S → E → Prop}
    {Q : S' → E' → Prop} (f : S → S') {s₀ : S} (J : S → List O → List O' → Prop) (h₀ : J s₀ [] [])
    (hstep : ∀ s os ps e t o, (∃ ds, N.Run Q (f s₀) ds (f s) ps) → J s os ps → P s e →
      M.step s e = some (t, o) → (f t = f s ∧ J t (os ++ o) ps) ∨
        ∃ e' o', Q (f s) e' ∧ N.step (f s) e' = some (f t, o') ∧ J t (os ++ o) (ps ++ o'))
    {es : List E} {s : S} {os : List O} (h : M.Run P s₀ es s os) :
    ∃ es' ps, N.Run Q (f s₀) es' (f s) ps ∧ J s os ps := by
  induction h with
  | nil => exact ⟨[],[],.nil,h₀⟩
  | snoc _ guard hs ih =>
    obtain ⟨es',ps,hrun,hj⟩ := ih
    rcases hstep _ _ _ _ _ _ ⟨es',hrun⟩ hj guard hs with ⟨hf,hj'⟩ | ⟨e',o',hq,hn,hj'⟩
    · exact ⟨es',ps,hf ▸ hrun,hj'⟩
    · exact ⟨_,_,hrun.snoc hq hn,hj'⟩

theorem Run.append {P : S → E → Prop} {s₀ s t : S} {ds es : List E} {os ps : List O}
    (h : M.Run P s₀ ds s os) (h' : M.Run P s es t ps) : M.Run P s₀ (ds ++ es) t (os ++ ps) := by
  induction h' with
  | nil => simpa using h
  | snoc _ guard hs ih =>
    rw [← List.append_assoc, ← List.append_assoc]
    exact ih.snoc guard hs

theorem Run.single {P : S → E → Prop} {s t : S} {e : E} {o : List O} (guard : P s e)
    (hstep : M.step s e = some (t, o)) : M.Run P s [e] t o :=
  Run.nil.snoc guard hstep

theorem Run.simulation {S' E' : Type} {N : Machine S' E' O} {P : S → E → Prop}
    {Q : S' → E' → Prop} (R : S → S' → Prop) {s₀ : S} {a₀ : S'} (h₀ : R s₀ a₀)
    (hstep : ∀ s a e t o, R s a → P s e → M.step s e = some (t, o) →
      ∃ es' b, N.Run Q a es' b o ∧ R t b)
    {es : List E} {s : S} {os : List O} (h : M.Run P s₀ es s os) :
    ∃ es' a, N.Run Q a₀ es' a os ∧ R s a := by
  induction h with
  | nil => exact ⟨[],a₀,.nil,h₀⟩
  | snoc _ guard hs ih =>
    obtain ⟨es',a,hrun,hr⟩ := ih
    obtain ⟨es'',b,hrun',hr'⟩ := hstep _ _ _ _ _ hr guard hs
    exact ⟨_,b,hrun.append hrun',hr'⟩

variable (M)

def exec (P : S → E → Prop) [∀ s e, Decidable (P s e)] :
    List E → S → List O → Option (S × List O)
  | [], s, os => some (s, os)
  | e :: es, s, os =>
      if P s e then
        match M.step s e with
        | none => none
        | some (t, o) => exec P es t (os ++ o)
      else none

variable {M}

theorem Run.exec_from {P : S → E → Prop} [∀ s e, Decidable (P s e)] {s₀ : S} {ds es : List E}
    {s t : S} {os ps : List O} (h : M.Run P s₀ ds s os) (he : M.exec P es s os = some (t, ps)) :
    M.Run P s₀ (ds ++ es) t ps := by
  induction es generalizing ds s os with
  | nil =>
    simp only [exec, Option.some.injEq, Prod.mk.injEq] at he
    obtain ⟨rfl,rfl⟩ := he
    simpa using h
  | cons e es ih =>
    simp only [exec] at he
    split at he
    · rename_i hg
      cases hs : M.step s e with
      | none => simp [hs] at he
      | some r =>
        obtain ⟨u,o⟩ := r
        simp only [hs] at he
        simpa using ih (h.snoc hg hs) he
    · simp at he

theorem run_of_exec {P : S → E → Prop} [∀ s e, Decidable (P s e)] {s₀ : S} {es : List E}
    (h : (M.exec P es s₀ []).isSome) :
    M.Run P s₀ es ((M.exec P es s₀ []).get h).1 ((M.exec P es s₀ []).get h).2 := by
  have hr := Run.exec_from (M := M) (P := P) Run.nil (Option.some_get h).symm
  rwa [List.nil_append] at hr

section

variable {α : Type} {ins outs held i o held' lost : List α}

theorem flow_append (h : outs ++ held = ins) (hstep : held ++ i = o ++ held') :
    outs ++ o ++ held' = ins ++ i := by
  rw [List.append_assoc, ← hstep, ← List.append_assoc, h]

theorem flow_sublist (h : (outs ++ held).Sublist ins) (hstep : held ++ i = o ++ held' ++ lost) :
    (outs ++ o ++ held').Sublist (ins ++ i) := by
  calc outs ++ o ++ held'
      = outs ++ (o ++ held') := List.append_assoc ..
    List.Sublist _ (outs ++ (o ++ held' ++ lost)) :=
        (List.sublist_append_left _ lost).append_left _
    _ = outs ++ held ++ i := by rw [← hstep, List.append_assoc]
    List.Sublist _ (ins ++ i) := h.append_right _

end

theorem exists_set {α : Type} {l : List α} {i : Nat} {x : α} (h : l[i]? = some x) (y : α) :
    ∃ a b, l = a ++ x :: b ∧ l.set i y = a ++ y :: b := by
  obtain ⟨hi,rfl⟩ := List.getElem?_eq_some_iff.mp h
  obtain ⟨a,b,hl,-,hset⟩ : ∃ a b, l = a ++ l[i] :: b ∧ a.length = i ∧ l.set i y = a ++ y :: b :=
    List.exists_of_set hi
  exact ⟨a,b,hl,hset⟩

theorem filterMap_set {α β : Type} (f : α → Option β) {l : List α} {i : Nat} {x : α}
    (h : l[i]? = some x) (y : α) :
    ∃ a b, l.filterMap f = a ++ (f x).toList ++ b ∧
      (l.set i y).filterMap f = a ++ (f y).toList ++ b := by
  obtain ⟨a,b,hl,hset⟩ := exists_set h y
  refine ⟨a.filterMap f,b.filterMap f,?_,?_⟩
  · rw [hl]
    cases hx : f x <;> simp [hx]
  · rw [hset]
    cases hy : f y <;> simp [hy]

theorem filterMap_set_perm {α β : Type} (f : α → Option β) {l : List α} {i : Nat} {x : α}
    (h : l[i]? = some x) (y : α) :
    ∃ frame, (l.filterMap f).Perm ((f x).toList ++ frame) ∧
      ((l.set i y).filterMap f).Perm ((f y).toList ++ frame) := by
  obtain ⟨a,b,hold,hnew⟩ := filterMap_set f h y
  have hfront (l : List β) : (a ++ l ++ b).Perm (l ++ (a ++ b)) := by
    rw [← List.append_assoc]
    exact List.perm_append_comm.append_right b
  rw [hold, hnew]
  exact ⟨a ++ b,hfront _,hfront _⟩

theorem getElem?_set_cases {α : Type} {l : List α} {i j : Nat} {x y : α}
    (h : (l.set i y)[j]? = some x) : (i = j ∧ x = y) ∨ (i ≠ j ∧ l[j]? = some x) := by
  rcases eq_or_ne i j with rfl | hne
  · have hlt : i < l.length := by simpa using (List.getElem?_eq_some_iff.mp h).1
    rw [List.getElem?_set_self hlt] at h
    exact .inl ⟨rfl,(Option.some.inj h).symm⟩
  · rw [List.getElem?_set_ne hne] at h
    exact .inr ⟨hne,h⟩

theorem countP_snoc {α : Type} (p : α → Bool) (l : List α) (x : α) :
    (l ++ [x]).countP p = l.countP p + (p x).toNat := by
  cases h : p x <;> simp [h]

theorem sum_set {α M : Type} [AddCommMonoid M] (f : α → M) {l : List α} {i : Nat} {x : α}
    (h : l[i]? = some x) (y : α) :
    ∃ frame, (l.map f).sum = frame + f x ∧ ((l.set i y).map f).sum = frame + f y := by
  obtain ⟨a,b,hl,hset⟩ := exists_set h y
  refine ⟨(a.map f).sum + (b.map f).sum,?_,?_⟩
  · rw [hl, List.map_append, List.sum_append, List.map_cons, List.sum_cons]
    abel
  · rw [hset, List.map_append, List.sum_append, List.map_cons, List.sum_cons]
    abel

end Machine
