import Mathlib.Data.List.Forall2

namespace Transducer

variable {S T X Y Z : Type}

def run (f : S → X → Y × S) : List X → S → List Y × S
  | [], s => ([], s)
  | x :: xs, s => ((f s x).1 :: (run f xs (f s x).2).1, (run f xs (f s x).2).2)

theorem run_append (f : S → X → Y × S) (xs ys : List X) (s : S) :
    run f (xs ++ ys) s =
      ((run f xs s).1 ++ (run f ys (run f xs s).2).1, (run f ys (run f xs s).2).2) := by
  induction xs generalizing s with
  | nil => rfl
  | cons x xs ih => simp [run, ih]

theorem run_length (f : S → X → Y × S) (xs : List X) (s : S) :
    (run f xs s).1.length = xs.length := by
  induction xs generalizing s with
  | nil => rfl
  | cons x xs ih => simp [run, ih]

theorem run_snoc (f : S → X → Y × S) (xs : List X) (x : X) (s : S) :
    run f (xs ++ [x]) s =
      ((run f xs s).1 ++ [(f (run f xs s).2 x).1], (f (run f xs s).2 x).2) := by
  rw [run_append]
  rfl

theorem run_state {f : S → X → Y × S} {g : S → X → Z × S} (h : ∀ s x, (f s x).2 = (g s x).2)
    (xs : List X) (s : S) : (run f xs s).2 = (run g xs s).2 := by
  induction xs generalizing s with
  | nil => rfl
  | cons x xs ih =>
    simp only [run, h s x]
    exact ih _

theorem invariant {f : S → X → Y × S} {I : S → Prop} (hstep : ∀ s x, I s → I (f s x).2)
    {s : S} (h : I s) (xs : List X) : I (run f xs s).2 := by
  induction xs generalizing s with
  | nil => exact h
  | cons x xs ih => exact ih (hstep s x h)

theorem lockstep {f : S → X → Y × S} {g : T → X → Z × T} {A : X → Prop} {R : S → T → Prop}
    {Q : Y → Z → Prop}
    (hstep : ∀ s t x, A x → R s t → Q (f s x).1 (g t x).1 ∧ R (f s x).2 (g t x).2)
    {xs : List X} (hxs : ∀ x ∈ xs, A x) {s : S} {t : T} (h : R s t) :
    List.Forall₂ Q (run f xs s).1 (run g xs t).1 ∧ R (run f xs s).2 (run g xs t).2 := by
  induction xs generalizing s t with
  | nil => exact ⟨.nil,h⟩
  | cons x xs ih =>
    obtain ⟨hq,hr⟩ := hstep s t x (hxs x (by simp)) h
    obtain ⟨hqs,hrs⟩ := ih (fun y hy => hxs y (by simp [hy])) hr
    exact ⟨.cons hq hqs,hrs⟩

def tagged (f : S → X → Y × S) (s : S) : X ⊕ X → (Y ⊕ Y) × S
  | .inl x => (.inl (f s x).1, (f s x).2)
  | .inr x => (.inr (f s x).1, (f s x).2)

def lefts (zs : List (X ⊕ X)) : List X := zs.filterMap Sum.getLeft?

def rights (zs : List (X ⊕ X)) : List X := zs.filterMap Sum.getRight?

structure Independent (f : S → X → Y × S) (x y : X) : Prop where
  left : ∀ s, (f (f s y).2 x).1 = (f s x).1
  right : ∀ s, (f (f s x).2 y).1 = (f s y).1
  state : ∀ s, (f (f s x).2 y).2 = (f (f s y).2 x).2

theorem Independent.symm {f : S → X → Y × S} {x y : X} (h : Independent f x y) :
    Independent f y x := ⟨h.right,h.left,fun s => (h.state s).symm⟩

theorem run_past {f : S → X → Y × S} {xs : List X} {y : X}
    (h : ∀ x ∈ xs, Independent f x y) (s : S) :
    run f xs (f s y).2 = ((run f xs s).1, (f (run f xs s).2 y).2) ∧
      (f (run f xs s).2 y).1 = (f s y).1 := by
  induction xs generalizing s with
  | nil => exact ⟨rfl,rfl⟩
  | cons x xs ih =>
    have hx := h x (by simp)
    obtain ⟨hrun,hreply⟩ := ih (fun z hz => h z (by simp [hz])) (f s x).2
    refine ⟨?_,hreply.trans (hx.right s)⟩
    simp only [run, hx.left s, ← hx.state s, hrun]

theorem run_tagged {f : S → X → Y × S} {zs : List (X ⊕ X)}
    (h : ∀ x ∈ lefts zs, ∀ y ∈ rights zs, Independent f x y) (s : S) :
    lefts (run (tagged f) zs s).1 = (run f (lefts zs) s).1 ∧
      rights (run (tagged f) zs s).1 = (run f (rights zs) (run f (lefts zs) s).2).1 ∧
      (run (tagged f) zs s).2 = (run f (rights zs) (run f (lefts zs) s).2).2 := by
  induction zs generalizing s with
  | nil => exact ⟨rfl,rfl,rfl⟩
  | cons z zs ih =>
    cases z with
    | inl x =>
      obtain ⟨hl,hr,hs⟩ := ih (fun a ha => h a (List.mem_cons_of_mem x ha)) (f s x).2
      exact ⟨congrArg (List.cons _) hl,hr,hs⟩
    | inr y =>
      obtain ⟨hl,hr,hs⟩ := ih (fun a ha b hb => h a ha b (List.mem_cons_of_mem y hb)) (f s y).2
      obtain ⟨hrun,hreply⟩ := run_past (fun x hx => h x hx y (List.mem_cons_self ..)) s
      have hpast : run f (lefts (.inr y :: zs)) (f s y).2 = run f (lefts zs) (f s y).2 := rfl
      rw [hpast] at hrun
      rw [hrun] at hl hr hs
      refine ⟨hl,?_,hs⟩
      rw [show rights (run (tagged f) (.inr y :: zs) s).1 =
        (f s y).1 :: rights (run (tagged f) zs (f s y).2).1 from rfl, hr, ← hreply]
      rfl

theorem run_commute {f : S → X → Y × S} {xs ys : List X}
    (h : ∀ x ∈ xs, ∀ y ∈ ys, Independent f x y) (s : S) :
    (run f ys (run f xs s).2).1 = (run f ys s).1 ∧
      (run f ys (run f xs s).2).2 = (run f xs (run f ys s).2).2 := by
  induction ys generalizing s with
  | nil => exact ⟨rfl,rfl⟩
  | cons y ys ih =>
    obtain ⟨hrun,hreply⟩ := run_past (fun x hx => h x hx y (by simp)) s
    obtain ⟨hys,hs⟩ := ih (fun x hx z hz => h x hx z (by simp [hz])) (f s y).2
    rw [hrun] at hys hs
    refine ⟨?_,hs⟩
    simp only [run, hys, hreply]

end Transducer
