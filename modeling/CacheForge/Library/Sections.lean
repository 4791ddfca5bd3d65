import CacheForge.Library.Machine

structure Sections (C K I L X R A Y : Type) where
  start : C → K
  next : K → Y ⊕ I × L
  step : L → X → R → L × R × A
  resume : K → L → Option K

namespace Sections

inductive Thread (K I L : Type) where
  | idle
  | calling (k : K)
  | inside (i : I) (k : K) (l : L)
  deriving DecidableEq

structure State (K I L X R A : Type) where
  resources : I → R
  owner : I → Option Nat
  total : A
  clock : X
  threads : List (Thread K I L)

inductive Event (C X : Type) where
  | tick (now : X)
  | call (t : Nat) (c : C)
  | acquire (t : Nat)
  | work (t : Nat)
  | release (t : Nat)
  | ret (t : Nat)
  deriving DecidableEq

inductive Notice (C Y : Type) where
  | called (t : Nat) (c : C)
  | returned (t : Nat) (y : Y)
  deriving DecidableEq

structure Atomic (K I X R A : Type) where
  resources : I → R
  total : A
  clock : X
  threads : List (Option (K × X))

inductive Action (C X : Type) where
  | tick (now : X)
  | call (t : Nat) (c : C)
  | perform (t : Nat) (xs : List X)
  | ret (t : Nat)

variable {C K I L X R A Y : Type}

def State.start (r : I → R) (a : A) (x : X) (n : Nat) : State K I L X R A :=
  ⟨r, fun _ => none, a, x, List.replicate n .idle⟩

def Atomic.start (r : I → R) (a : A) (x : X) (n : Nat) : Atomic K I X R A :=
  ⟨r, a, x, List.replicate n none⟩

theorem sum_set_of {M : Type} [AddCommMonoid M] {ds : List M} {t : Nat} {d : M}
    (h : ds[t]? = some d) (e : M) :
    ∃ frame, ds.sum = frame + d ∧ (ds.set t e).sum = frame + e := by
  simpa using Machine.sum_set id h e

theorem set_same {α : Type} {l : List α} {t : Nat} {x : α} (h : l[t]? = some x) :
    l.set t x = l := by
  obtain ⟨hi,rfl⟩ := List.getElem?_eq_some_iff.mp h
  exact List.set_getElem_self hi

def Atomic.Past [LinearOrder X] (a : Atomic K I X R A) : Prop :=
  ∀ p ∈ a.threads, ∀ q ∈ p, q.2 ≤ a.clock

theorem Atomic.Past.set [LinearOrder X] {a : Atomic K I X R A} (h : a.Past) (t : Nat)
    {p : Option (K × X)} (hp : ∀ q ∈ p, q.2 ≤ a.clock) :
    ∀ p' ∈ a.threads.set t p, ∀ q ∈ p', q.2 ≤ a.clock := by
  intro p' hp'
  rcases List.mem_or_eq_of_mem_set hp' with hold | rfl
  · exact h p' hold
  · exact hp

variable (G : Sections C K I L X R A Y)

structure Budget (J : I → R → Prop) where
  rank : L → R → Nat
  after : K → Nat
  cost : K → Nat
  work : ∀ k l x r, G.resume k l = none → rank (G.step l x r).1 (G.step l x r).2.1 < rank l r
  enter : ∀ k i l r, G.next k = .inr (i, l) → J i r → rank l r + 2 + after k ≤ cost k
  leave : ∀ k l k', G.resume k l = some k' → cost k' ≤ after k
  answer : ∀ k y, G.next k = .inl y → 1 ≤ cost k

namespace Budget

variable {G} {J : I → R → Prop} (B : G.Budget J)

def weight (rs : I → R) : Thread K I L → Nat
  | .idle => 0
  | .calling k => B.cost k
  | .inside i k l => B.rank l (rs i) + 1 + B.after k

theorem weight_set {s : State K I L X R A} {t : Nat} {th₀ : Thread K I L}
    (ht : s.threads[t]? = some th₀) (th : Thread K I L) {rs : I → R}
    (hother : ∀ u i k l, u ≠ t → s.threads[u]? = some (.inside i k l) → rs i = s.resources i) :
    ∃ frame, (s.threads.map (B.weight s.resources)).sum = frame + B.weight s.resources th₀ ∧
      ((s.threads.set t th).map (B.weight rs)).sum = frame + B.weight rs th := by
  have hlist : (s.threads.set t th).map (B.weight rs) =
      (s.threads.map (B.weight s.resources)).set t (B.weight rs th) := by
    refine List.ext_getElem? fun u => ?_
    rw [List.getElem?_map, List.getElem?_set, List.getElem?_set, List.getElem?_map,
      List.length_map]
    by_cases hut : t = u
    · simp [hut]
    · rw [if_neg hut, if_neg hut]
      cases hu : s.threads[u]? with
      | none => rfl
      | some thᵤ =>
        cases thᵤ with
        | inside i k l => simp [weight, hother u i k l (Ne.symm hut) hu]
        | idle => rfl
        | calling k => rfl
  rw [hlist]
  exact sum_set_of (by simp [ht]) _

end Budget

variable [AddCommMonoid A]

def execute (k : K) : List X → L → R → Option (L × R × A)
  | [], l, r => some (l, r, 0)
  | x :: xs, l, r =>
      match G.resume k l with
      | some _ => none
      | none =>
          let (l', r', a) := G.step l x r
          (execute k xs l' r').map fun (l'', r'', b) => (l'', r'', a + b)

variable {G}

theorem execute_snoc {k : K} {xs : List X} {l₀ l l' : L} {r₀ r r' : R} {a b : A} {x : X}
    (h : G.execute k xs l₀ r₀ = some (l, r, a)) (hmore : G.resume k l = none)
    (hstep : G.step l x r = (l', r', b)) :
    G.execute k (xs ++ [x]) l₀ r₀ = some (l', r', a + b) := by
  induction xs generalizing l₀ r₀ a with
  | nil =>
    cases h
    simp [execute, hmore, hstep]
  | cons y xs ih =>
    simp only [List.cons_append, execute] at h ⊢
    split at h
    · cases h
    · obtain ⟨⟨l₁,r₁,c⟩,hx,heq⟩ := Option.map_eq_some_iff.mp h
      cases heq
      rw [ih hx, Option.map_some, add_assoc]

variable [LinearOrder X]

def Timely (since : X) (xs : List X) (clock : X) : Prop :=
  (since :: (xs ++ [clock])).Pairwise (· ≤ ·)

theorem Timely.start {since clock : X} (h : since ≤ clock) : Timely since [] clock := by
  simpa [Timely] using h

theorem Timely.since_le {since clock : X} {xs : List X} (h : Timely since xs clock) :
    since ≤ clock := List.rel_of_pairwise_cons h (by simp)

theorem Timely.tail {since x clock : X} {xs : List X} (h : Timely since (x :: xs) clock) :
    since ≤ x ∧ Timely x xs clock :=
  ⟨List.rel_of_pairwise_cons h (by simp),(List.pairwise_cons.mp h).2⟩

theorem Timely.later {since clock now : X} {xs : List X} (h : Timely since xs clock)
    (hle : clock ≤ now) : Timely since xs now := by
  simp only [Timely, List.pairwise_cons, List.pairwise_append, List.mem_append,
    List.mem_singleton] at h ⊢
  obtain ⟨hs,hxs,hnil,hlast⟩ := h
  refine ⟨?_,hxs,⟨nofun,.nil⟩,fun x hx y hy => ?_⟩
  · rintro x (hx | rfl)
    · exact hs x (.inl hx)
    · exact (hs clock (.inr rfl)).trans hle
  · exact hy ▸ (hlast x hx clock rfl).trans hle

theorem Timely.read {since clock : X} {xs : List X} (h : Timely since xs clock) :
    Timely since (xs ++ [clock]) clock := by
  have hself : Timely since (xs ++ [clock]) clock ↔
      (since :: (xs ++ [clock]) ++ [clock]).Pairwise (· ≤ ·) := Iff.rfl
  rw [hself, List.pairwise_append]
  refine ⟨h,List.pairwise_singleton ..,fun x hx y hy => ?_⟩
  rw [List.mem_singleton.mp hy]
  rw [← List.cons_append, List.mem_append, List.mem_singleton] at hx
  rcases hx with hx | rfl
  · rw [Timely, ← List.cons_append, List.pairwise_append] at h
    exact h.2.2 x hx clock (List.mem_singleton_self _)
  · exact le_rfl

variable (G) in
inductive Tracks (clock : X) (owner : I → Option Nat) (rs as : I → R) (t : Nat) :
    Thread K I L → Option (K × X) → A → Prop
  | idle : Tracks clock owner rs as t .idle none 0
  | calling {k : K} {since : X} (hsince : since ≤ clock) :
      Tracks clock owner rs as t (.calling k) (some (k, since)) 0
  | inside {i : I} {k : K} {l₀ l : L} {since : X} {xs : List X} {d : A}
      (howner : owner i = some t) (hnext : G.next k = .inr (i, l₀))
      (htime : Timely since xs clock) (hexec : G.execute k xs l₀ (as i) = some (l, rs i, d)) :
      Tracks clock owner rs as t (.inside i k l) (some (k, since)) d

theorem Tracks.frame {clock clock' : X} {owner owner' : I → Option Nat} {rs rs' as as' : I → R}
    {t : Nat} {th : Thread K I L} {p : Option (K × X)} {d : A}
    (h : G.Tracks clock owner rs as t th p d) (hle : clock ≤ clock')
    (hown : ∀ i, owner i = some t → owner' i = some t ∧ rs' i = rs i ∧ as' i = as i) :
    G.Tracks clock' owner' rs' as' t th p d := by
  cases h with
  | idle => exact .idle
  | calling hsince => exact .calling (hsince.trans hle)
  | inside howner hnext htime hexec =>
    obtain ⟨ho,hr,ha⟩ := hown _ howner
    exact .inside ho hnext (htime.later hle) (by rwa [hr, ha])

variable (G) in
structure Refines (s : State K I L X R A) (a : Atomic K I X R A) (ds : List A) : Prop where
  clock : a.clock = s.clock
  free : ∀ i, s.owner i = none → s.resources i = a.resources i
  held : ∀ i t, s.owner i = some t → ∃ k l, s.threads[t]? = some (.inside i k l)
  tracked : ∀ t th, s.threads[t]? = some th → ∃ p d, a.threads[t]? = some p ∧ ds[t]? = some d ∧
    G.Tracks s.clock s.owner s.resources a.resources t th p d
  debts : ds.length = s.threads.length
  total : s.total = a.total + ds.sum

namespace Refines

theorem start (r : I → R) (a : A) (x : X) (n : Nat) :
    G.Refines (.start r a x n) (.start r a x n) (List.replicate n 0) := by
  refine ⟨rfl,fun _ _ => rfl,nofun,fun t th ht => ?_,by simp [State.start],?_⟩
  · rw [State.start, List.getElem?_replicate] at ht
    split at ht
    · rename_i hn
      cases ht
      exact ⟨none,0,by simp [Atomic.start, hn],by simp [hn],.idle⟩
    · cases ht
  · simp [State.start, Atomic.start]

variable {s : State K I L X R A} {a : Atomic K I X R A} {ds : List A}

theorem calling (h : G.Refines s a ds) {t : Nat} {k : K}
    (ht : s.threads[t]? = some (.calling k)) :
    ∃ since, a.threads[t]? = some (some (k, since)) ∧ ds[t]? = some 0 ∧ since ≤ s.clock := by
  obtain ⟨p,d,hp,hd,htr⟩ := h.tracked t _ ht
  cases htr with
  | calling hsince => exact ⟨_,hp,hd,hsince⟩

theorem inside (h : G.Refines s a ds) {t : Nat} {i : I} {k : K} {l : L}
    (ht : s.threads[t]? = some (.inside i k l)) :
    s.owner i = some t ∧ ∃ l₀ xs d since, a.threads[t]? = some (some (k, since)) ∧
      ds[t]? = some d ∧ G.next k = .inr (i, l₀) ∧ Timely since xs s.clock ∧
      G.execute k xs l₀ (a.resources i) = some (l, s.resources i, d) := by
  obtain ⟨p,d,hp,hd,htr⟩ := h.tracked t _ ht
  cases htr with
  | inside howner hnext htime hexec => exact ⟨howner,_,_,d,_,hp,hd,hnext,htime,hexec⟩

theorem exclusive (h : G.Refines s a ds) {t u : Nat} {i : I} {k k' : K} {l l' : L}
    (ht : s.threads[t]? = some (.inside i k l)) (hu : s.threads[u]? = some (.inside i k' l')) :
    t = u := Option.some.inj ((h.inside ht).1.symm.trans (h.inside hu).1)

theorem total_idle (h : G.Refines s a ds) (hfree : ∀ i, s.owner i = none) :
    s.total = a.total := by
  have hzero : ∀ d ∈ ds, d = 0 := by
    intro d hd
    obtain ⟨t,ht,rfl⟩ := List.mem_iff_getElem.mp hd
    obtain ⟨th,hth⟩ : ∃ th, s.threads[t]? = some th :=
      ⟨_,List.getElem?_eq_getElem (h.debts ▸ ht)⟩
    obtain ⟨p,e,-,he,htr⟩ := h.tracked t th hth
    rw [List.getElem?_eq_getElem ht, Option.some.injEq] at he
    cases htr with
    | idle => exact he
    | calling _ => exact he
    | inside howner _ _ _ =>
      rw [hfree] at howner
      cases howner
  rw [h.total, List.sum_eq_zero hzero, add_zero]

theorem update (h : G.Refines s a ds) {clock' : X} (owner' : I → Option Nat)
    (rs' : I → R) {as' : I → R} {t : Nat} {th₀ th : Thread K I L} {p : Option (K × X)} {d : A}
    (ht : s.threads[t]? = some th₀) (hle : s.clock ≤ clock')
    (hother : ∀ u i, u ≠ t → s.owner i = some u →
      owner' i = some u ∧ rs' i = s.resources i ∧ as' i = a.resources i)
    (hself : G.Tracks clock' owner' rs' as' t th p d) (u : Nat) (thᵤ : Thread K I L)
    (hu : (s.threads.set t th)[u]? = some thᵤ) :
    ∃ q e, (a.threads.set t p)[u]? = some q ∧ (ds.set t d)[u]? = some e ∧
      G.Tracks clock' owner' rs' as' u thᵤ q e := by
  obtain ⟨p₀,d₀,hp,hd,-⟩ := h.tracked t th₀ ht
  by_cases hut : u = t
  · subst hut
    rw [List.getElem?_set_self (List.getElem?_eq_some_iff.mp ht).1] at hu
    cases hu
    exact ⟨p,d,List.getElem?_set_self (List.getElem?_eq_some_iff.mp hp).1,
      List.getElem?_set_self (List.getElem?_eq_some_iff.mp hd).1,hself⟩
  · rw [List.getElem?_set_ne (Ne.symm hut)] at hu ⊢
    rw [List.getElem?_set_ne (Ne.symm hut)]
    obtain ⟨q,e,hq,he,htr⟩ := h.tracked u thᵤ hu
    exact ⟨q,e,hq,he,htr.frame hle fun i => hother u i hut⟩

theorem held_set (h : G.Refines s a ds) {t : Nat} {th₀ : Thread K I L}
    (ht : s.threads[t]? = some th₀) (th : Thread K I L) {i : I} {u : Nat}
    (hu : s.owner i = some u) (hout : ∀ k l, th₀ ≠ .inside i k l) :
    ∃ k l, (s.threads.set t th)[u]? = some (.inside i k l) := by
  obtain ⟨k,l,hkl⟩ := h.held i u hu
  refine ⟨k,l,?_⟩
  rw [List.getElem?_set_ne, hkl]
  rintro rfl
  exact hout k l (Option.some.inj (ht.symm.trans hkl))

end Refines

variable [DecidableEq I] (G)

def next? (s : State K I L X R A) : Event C X → Option (State K I L X R A × List (Notice C Y))
  | .tick now => if s.clock ≤ now then some ({ s with clock := now }, []) else none
  | .call t c =>
      match s.threads[t]? with
      | some .idle =>
          some ({ s with threads := s.threads.set t (.calling (G.start c)) }, [.called t c])
      | _ => none
  | .acquire t =>
      match s.threads[t]? with
      | some (.calling k) =>
          match G.next k with
          | .inl _ => none
          | .inr (i, l) =>
              if s.owner i = none then
                some ({ s with
                  owner := Function.update s.owner i (some t)
                  threads := s.threads.set t (.inside i k l) }, [])
              else none
      | _ => none
  | .work t =>
      match s.threads[t]? with
      | some (.inside i k l) =>
          match G.resume k l with
          | some _ => none
          | none =>
              let (l', r, a) := G.step l s.clock (s.resources i)
              some ({ s with
                resources := Function.update s.resources i r
                total := s.total + a
                threads := s.threads.set t (.inside i k l') }, [])
      | _ => none
  | .release t =>
      match s.threads[t]? with
      | some (.inside i k l) =>
          match G.resume k l with
          | none => none
          | some k' =>
              some ({ s with
                owner := Function.update s.owner i none
                threads := s.threads.set t (.calling k') }, [])
      | _ => none
  | .ret t =>
      match s.threads[t]? with
      | some (.calling k) =>
          match G.next k with
          | .inr _ => none
          | .inl y => some ({ s with threads := s.threads.set t .idle }, [.returned t y])
      | _ => none

def locked : Machine (State K I L X R A) (Event C X) (Notice C Y) := ⟨G.next?⟩

def perform? (s : Atomic K I X R A) : Action C X → Option (Atomic K I X R A × List (Notice C Y))
  | .tick now => if s.clock ≤ now then some ({ s with clock := now }, []) else none
  | .call t c =>
      match s.threads[t]? with
      | some none =>
          some ({ s with threads := s.threads.set t (some (G.start c, s.clock)) }, [.called t c])
      | _ => none
  | .perform t xs =>
      match s.threads[t]? with
      | some (some (k, since)) =>
          match G.next k with
          | .inl _ => none
          | .inr (i, l) =>
              match G.execute k xs l (s.resources i) with
              | none => none
              | some (l', r, a) =>
                  match G.resume k l' with
                  | none => none
                  | some k' =>
                      some ({ s with
                        resources := Function.update s.resources i r
                        total := s.total + a
                        threads := s.threads.set t (some (k', since)) }, [])
      | _ => none
  | .ret t =>
      match s.threads[t]? with
      | some (some (k, _)) =>
          match G.next k with
          | .inr _ => none
          | .inl y => some ({ s with threads := s.threads.set t none }, [.returned t y])
      | _ => none

def atomic : Machine (Atomic K I X R A) (Action C X) (Notice C Y) := ⟨G.perform?⟩

def inTime (s : Atomic K I X R A) : Action C X → Prop
  | .perform t xs => ∀ k since, s.threads[t]? = some (some (k, since)) → Timely since xs s.clock
  | _ => True

inductive Moves (s : State K I L X R A) :
    Event C X → State K I L X R A → List (Notice C Y) → Prop
  | tick {now : X} (hle : s.clock ≤ now) : Moves s (.tick now) { s with clock := now } []
  | call {t : Nat} {c : C} (ht : s.threads[t]? = some .idle) :
      Moves s (.call t c) { s with threads := s.threads.set t (.calling (G.start c)) } [.called t c]
  | acquire {t : Nat} {k : K} {i : I} {l : L} (ht : s.threads[t]? = some (.calling k))
      (hnext : G.next k = .inr (i, l)) (hfree : s.owner i = none) :
      Moves s (.acquire t) { s with
        owner := Function.update s.owner i (some t)
        threads := s.threads.set t (.inside i k l) } []
  | work {t : Nat} {i : I} {k : K} {l l' : L} {r : R} {a : A}
      (ht : s.threads[t]? = some (.inside i k l)) (hmore : G.resume k l = none)
      (hstep : G.step l s.clock (s.resources i) = (l', r, a)) :
      Moves s (.work t) { s with
        resources := Function.update s.resources i r
        total := s.total + a
        threads := s.threads.set t (.inside i k l') } []
  | release {t : Nat} {i : I} {k k' : K} {l : L} (ht : s.threads[t]? = some (.inside i k l))
      (hdone : G.resume k l = some k') :
      Moves s (.release t) { s with
        owner := Function.update s.owner i none
        threads := s.threads.set t (.calling k') } []
  | ret {t : Nat} {k : K} {y : Y} (ht : s.threads[t]? = some (.calling k))
      (hnext : G.next k = .inl y) :
      Moves s (.ret t) { s with threads := s.threads.set t .idle } [.returned t y]

variable {G}

theorem past_step {a b : Atomic K I X R A} {e : Action C X} {os : List (Notice C Y)}
    (h : a.Past) (hstep : G.atomic.step a e = some (b, os)) : b.Past := by
  cases e with
  | tick now =>
    simp only [atomic, perform?, Option.ite_none_right_eq_some, Option.some.injEq,
      Prod.mk.injEq] at hstep
    obtain ⟨hle,rfl,-⟩ := hstep
    exact fun p hp q hq => (h p hp q hq).trans hle
  | call t c =>
    simp only [atomic, perform?] at hstep
    split at hstep
    · cases hstep
      exact h.set t (by simp)
    · cases hstep
  | perform t xs =>
    simp only [atomic, perform?] at hstep
    split at hstep
    · rename_i k since ht
      have hsince : since ≤ a.clock := h _ (List.mem_of_getElem? ht) (k, since) rfl
      split at hstep
      · cases hstep
      · split at hstep
        · cases hstep
        · split at hstep
          · cases hstep
          · cases hstep
            exact h.set t (by simpa using hsince)
    · cases hstep
  | ret t =>
    simp only [atomic, perform?] at hstep
    split at hstep
    · split at hstep
      · cases hstep
      · cases hstep
        exact h.set t (by simp)
    · cases hstep

theorem locked_cases {s s' : State K I L X R A} {e : Event C X} {os : List (Notice C Y)}
    (h : G.locked.step s e = some (s', os)) : G.Moves s e s' os := by
  cases e with
  | tick now =>
    simp only [locked, next?, Option.ite_none_right_eq_some, Option.some.injEq,
      Prod.mk.injEq] at h
    obtain ⟨hle,rfl,rfl⟩ := h
    exact .tick hle
  | call t c =>
    simp only [locked, next?] at h
    split at h
    · rename_i ht
      cases h
      exact .call ht
    · cases h
  | acquire t =>
    simp only [locked, next?] at h
    split at h
    · rename_i k ht
      split at h
      · cases h
      · rename_i i l hnext
        simp only [Option.ite_none_right_eq_some, Option.some.injEq, Prod.mk.injEq] at h
        obtain ⟨hfree,rfl,rfl⟩ := h
        exact .acquire ht hnext hfree
    · cases h
  | work t =>
    simp only [locked, next?] at h
    split at h
    · rename_i i k l ht
      split at h
      · cases h
      · rename_i hmore
        cases h
        exact .work ht hmore rfl
    · cases h
  | release t =>
    simp only [locked, next?] at h
    split at h
    · rename_i i k l ht
      split at h
      · cases h
      · rename_i k' hdone
        cases h
        exact .release ht hdone
    · cases h
  | ret t =>
    simp only [locked, next?] at h
    split at h
    · rename_i k ht
      split at h
      · cases h
      · rename_i y hnext
        cases h
        exact .ret ht hnext
    · cases h

section

variable {s s' : State K I L X R A} {a : Atomic K I X R A} {ds : List A}

theorem Refines.acquire (h : G.Refines s a ds) {t : Nat} {k : K} {i : I} {l : L}
    (ht : s.threads[t]? = some (.calling k)) (hnext : G.next k = .inr (i, l))
    (hfree : s.owner i = none) :
    G.Refines { s with
      owner := Function.update s.owner i (some t)
      threads := s.threads.set t (.inside i k l) } a ds := by
  obtain ⟨since,hp,hd,hsince⟩ := h.calling ht
  have hother (u : Nat) (j : I) (hj : s.owner j = some u) : j ≠ i := by
    rintro rfl
    rw [hfree] at hj
    cases hj
  have hset := h.update (Function.update s.owner i (some t)) s.resources ht le_rfl
    (fun u j _ hj => ⟨by simp [hother u j hj, hj],rfl,rfl⟩)
    (.inside (Function.update_self ..) hnext (.start hsince) (by rw [h.free i hfree]; rfl))
  rw [set_same hp, set_same hd] at hset
  refine ⟨h.clock,fun j hj => ?_,fun j u hj => ?_,hset,by simpa using h.debts,h.total⟩
  · by_cases hji : j = i
    · simp [hji] at hj
    · exact h.free j (by simpa [hji] using hj)
  · by_cases hji : j = i
    · subst hji
      simp only [Function.update_self, Option.some.injEq] at hj
      exact hj ▸ ⟨k,l,List.getElem?_set_self (List.getElem?_eq_some_iff.mp ht).1⟩
    · exact h.held_set ht _ (by simpa [hji] using hj) nofun

theorem Refines.work (h : G.Refines s a ds) {t : Nat} {i : I} {k : K} {l l' : L} {r : R} {b : A}
    (ht : s.threads[t]? = some (.inside i k l)) (hmore : G.resume k l = none)
    (hstep : G.step l s.clock (s.resources i) = (l', r, b)) :
    ∃ ds', G.Refines { s with
      resources := Function.update s.resources i r
      total := s.total + b
      threads := s.threads.set t (.inside i k l') } a ds' := by
  obtain ⟨howner,l₀,xs,d,since,hp,hd,hnext,htime,hexec⟩ := h.inside ht
  have hother (u : Nat) (j : I) (hu : u ≠ t) (hj : s.owner j = some u) : j ≠ i := by
    rintro rfl
    exact hu (Option.some.inj (hj.symm.trans howner))
  have hset := h.update s.owner (Function.update s.resources i r) ht le_rfl
    (fun u j hu hj => ⟨hj,by simp [hother u j hu hj],rfl⟩)
    (.inside (l := l') (d := d + b) howner hnext htime.read
      (by rw [Function.update_self]; exact execute_snoc hexec hmore hstep))
  rw [set_same hp] at hset
  refine ⟨ds.set t (d + b),h.clock,fun j hj => ?_,fun j u hj => ?_,hset,
    by simpa using h.debts,?_⟩
  · have hji : j ≠ i := by
      rintro rfl
      rw [howner] at hj
      cases hj
    simpa [hji] using h.free j hj
  · by_cases hut : u = t
    · subst hut
      obtain ⟨k₁,l₁,hkl⟩ := h.held j u hj
      cases ht.symm.trans hkl
      exact ⟨k,l',List.getElem?_set_self (List.getElem?_eq_some_iff.mp ht).1⟩
    · exact h.held_set ht _ hj fun k₁ l₁ hx => hother u j hut hj (Thread.inside.inj hx).1.symm
  · obtain ⟨frame,hold,hnew⟩ := sum_set_of hd (d + b)
    simp only [h.total, hold, hnew]
    abel

theorem Refines.release (h : G.Refines s a ds) {t : Nat} {i : I} {k k' : K} {l : L}
    (ht : s.threads[t]? = some (.inside i k l)) (hdone : G.resume k l = some k') :
    ∃ e a', inTime a e ∧ G.atomic.step a e = some (a', []) ∧ ∃ ds', G.Refines { s with
      owner := Function.update s.owner i none
      threads := s.threads.set t (.calling k') } a' ds' := by
  obtain ⟨howner,l₀,xs,d,since,hp,hd,hnext,htime,hexec⟩ := h.inside ht
  have hother (u : Nat) (j : I) (hu : u ≠ t) (hj : s.owner j = some u) : j ≠ i := by
    rintro rfl
    exact hu (Option.some.inj (hj.symm.trans howner))
  refine ⟨.perform t xs,
    { a with
      resources := Function.update a.resources i (s.resources i)
      total := a.total + d
      threads := a.threads.set t (some (k', since)) },
    fun k₁ since₁ hk => ?_,by simp [atomic, perform?, hp, hnext, hexec, hdone],ds.set t 0,?_⟩
  · rw [hp] at hk
    cases hk
    exact h.clock ▸ htime
  · refine ⟨h.clock,fun j hj => ?_,fun j u hj => ?_,?_,by simpa using h.debts,?_⟩
    · by_cases hji : j = i
      · simp [hji]
      · simpa [hji] using h.free j (by simpa [hji] using hj)
    · have hji : j ≠ i := by
        rintro rfl
        simp at hj
      exact h.held_set ht _ (by simpa [hji] using hj) fun k₁ l₁ hx =>
        hji (Thread.inside.inj hx).1.symm
    · exact h.update _ _ ht le_rfl (fun u j hu hj => by simp [hother u j hu hj, hj])
        (.calling htime.since_le)
    · obtain ⟨frame,hold,hnew⟩ := sum_set_of hd 0
      simp only [h.total, hold, hnew]
      abel

theorem refines_step {e : Event C X} {os : List (Notice C Y)} (h : G.Refines s a ds)
    (hstep : G.locked.step s e = some (s', os)) :
    ∃ es a', G.atomic.Run inTime a es a' os ∧ ∃ ds', G.Refines s' a' ds' := by
  cases locked_cases hstep with
  | @tick now hle =>
    refine ⟨[.tick now],{ a with clock := now },.single trivial ?_,ds,rfl,h.free,h.held,
      fun t th ht => ?_,h.debts,h.total⟩
    · simp [atomic, perform?, h.clock, hle]
    · obtain ⟨p,d,hp,hd,htr⟩ := h.tracked t th ht
      exact ⟨p,d,hp,hd,htr.frame hle fun _ ho => ⟨ho,rfl,rfl⟩⟩
  | @call t c ht =>
    obtain ⟨p,d,hp,hd,htr⟩ := h.tracked t _ ht
    cases htr
    have hset := h.update _ _ ht le_rfl (fun _ _ _ ho => ⟨ho,rfl,rfl⟩)
      (.calling (k := G.start c) h.clock.le)
    rw [set_same hd] at hset
    exact ⟨[.call t c],{ a with threads := a.threads.set t (some (G.start c, a.clock)) },
      .single trivial (by simp [atomic, perform?, hp]),ds,h.clock,h.free,
      fun i u hu => h.held_set ht _ hu nofun,hset,by simpa using h.debts,h.total⟩
  | acquire ht hnext hfree => exact ⟨[],a,.nil,ds,h.acquire ht hnext hfree⟩
  | work ht hmore hwork => exact ⟨[],a,.nil,h.work ht hmore hwork⟩
  | release ht hdone =>
    obtain ⟨e,a',htime,hatomic,href⟩ := h.release ht hdone
    exact ⟨[e],a',.single htime hatomic,href⟩
  | @ret t k y ht hnext =>
    obtain ⟨since,hp,hd,-⟩ := h.calling ht
    have hset := h.update _ _ ht le_rfl (fun _ _ _ ho => ⟨ho,rfl,rfl⟩) .idle
    rw [set_same hd] at hset
    exact ⟨[.ret t],{ a with threads := a.threads.set t none },
      .single trivial (by simp [atomic, perform?, hp, hnext]),ds,h.clock,h.free,
      fun i u hu => h.held_set ht _ hu nofun,hset,by simpa using h.debts,h.total⟩

end

theorem locked_refines_atomic {r : I → R} {b : A} {x : X} {n : Nat} {es : List (Event C X)}
    {s : State K I L X R A} {os : List (Notice C Y)}
    (h : G.locked.Run Machine.anyStep (.start r b x n) es s os) :
    ∃ es' a, G.atomic.Run inTime (.start r b x n) es' a os ∧ ∃ ds, G.Refines s a ds := by
  refine h.simulation (fun s a => ∃ ds, G.Refines s a ds) ⟨_,Refines.start r b x n⟩ ?_
  rintro s a e s' os ⟨ds,hr⟩ - hstep
  exact refines_step hr hstep

def Event.isCall : Event C X → Bool
  | .call _ _ => true
  | _ => false

def Event.isProgress : Event C X → Bool
  | .tick _ => false
  | .call _ _ => false
  | _ => true

theorem Refines.exists_progress {s : State K I L X R A} {a : Atomic K I X R A} {ds : List A}
    (h : G.Refines s a ds) {t : Nat} {th : Thread K I L} (ht : s.threads[t]? = some th)
    (hbusy : th ≠ .idle) : ∃ e : Event C X, e.isProgress ∧ (G.locked.step s e).isSome := by
  have hinside (u : Nat) (i : I) (k : K) (l : L) (hu : s.threads[u]? = some (.inside i k l)) :
      ∃ e : Event C X, e.isProgress ∧ (G.locked.step s e).isSome := by
    cases hdone : G.resume k l with
    | none => exact ⟨.work u,rfl,by simp [locked, next?, hu, hdone]⟩
    | some k' => exact ⟨.release u,rfl,by simp [locked, next?, hu, hdone]⟩
  cases th with
  | idle => exact absurd rfl hbusy
  | inside i k l => exact hinside t i k l ht
  | calling k =>
    cases hnext : G.next k with
    | inl y => exact ⟨.ret t,rfl,by simp [locked, next?, ht, hnext]⟩
    | inr p =>
      obtain ⟨i,l⟩ := p
      cases hown : s.owner i with
      | none => exact ⟨.acquire t,rfl,by simp [locked, next?, ht, hnext, hown]⟩
      | some u =>
        obtain ⟨k',l',hu⟩ := h.held i u hown
        exact hinside u i k' l' hu

namespace Budget

variable {J : I → R → Prop} (B : G.Budget J)

theorem step_weight {s s' : State K I L X R A} {a : Atomic K I X R A} {ds : List A}
    {e : Event C X} {os : List (Notice C Y)} {N : Nat} (h : G.Refines s a ds)
    (hJ : ∀ i, J i (a.resources i)) (hN : ∀ c, B.cost (G.start c) ≤ N)
    (hstep : G.locked.step s e = some (s', os)) :
    [e].countP Event.isProgress + (s'.threads.map (B.weight s'.resources)).sum ≤
      (s.threads.map (B.weight s.resources)).sum + N * [e].countP Event.isCall := by
  cases locked_cases hstep with
  | tick hle => simp [Event.isProgress]
  | @call t c ht =>
    obtain ⟨frame,hold,hnew⟩ := B.weight_set ht (.calling (G.start c)) fun _ _ _ _ _ _ => rfl
    have hc := hN c
    rw [hold, hnew]
    simp [weight, Event.isProgress, Event.isCall]
    omega
  | @acquire t k i l ht hnext hfree =>
    obtain ⟨frame,hold,hnew⟩ := B.weight_set ht (.inside i k l) fun _ _ _ _ _ _ => rfl
    have hc := B.enter k i l (s.resources i) hnext (h.free i hfree ▸ hJ i)
    rw [hold, hnew]
    simp [weight, Event.isProgress, Event.isCall]
    omega
  | @work t i k l l' r b ht hmore hwork =>
    have hother (u : Nat) (j : I) (k₁ : K) (l₁ : L) (hu : u ≠ t)
        (hj : s.threads[u]? = some (.inside j k₁ l₁)) :
        Function.update s.resources i r j = s.resources j := by
      refine Function.update_of_ne ?_ ..
      rintro rfl
      exact hu (h.exclusive hj ht)
    obtain ⟨frame,hold,hnew⟩ := B.weight_set ht (.inside i k l') hother
    have hc := B.work k l s.clock (s.resources i) hmore
    simp only [hwork] at hc
    rw [hold, hnew]
    simp [weight, Event.isProgress, Event.isCall]
    omega
  | @release t i k k' l ht hdone =>
    obtain ⟨frame,hold,hnew⟩ := B.weight_set ht (.calling k') fun _ _ _ _ _ _ => rfl
    have hc := B.leave k l k' hdone
    rw [hold, hnew]
    simp [weight, Event.isProgress, Event.isCall]
    omega
  | @ret t k y ht hnext =>
    obtain ⟨frame,hold,hnew⟩ := B.weight_set ht .idle fun _ _ _ _ _ _ => rfl
    have hc := B.answer k y hnext
    rw [hold, hnew]
    simp [weight, Event.isProgress, Event.isCall]
    omega

theorem run_progress {r : I → R} {b : A} {x : X} {n N : Nat} {es : List (Event C X)}
    {s : State K I L X R A} {os : List (Notice C Y)}
    (hJ : ∀ es a os, G.atomic.Run inTime (.start r b x n) es a os → ∀ i, J i (a.resources i))
    (hN : ∀ c, B.cost (G.start c) ≤ N)
    (h : G.locked.Run Machine.anyStep (.start r b x n) es s os) :
    es.countP Event.isProgress + (s.threads.map (B.weight s.resources)).sum ≤
      N * es.countP Event.isCall := by
  induction h with
  | nil => simp [State.start, weight]
  | snoc hrun _ hstep ih =>
    obtain ⟨es',a,hatomic,ds,href⟩ := locked_refines_atomic hrun
    have hw := B.step_weight href (hJ _ _ _ hatomic) hN hstep
    simp only [List.countP_append, Nat.mul_add]
    omega

end Budget

end Sections
