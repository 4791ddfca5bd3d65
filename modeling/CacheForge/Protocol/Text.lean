import Mathlib.Data.List.DropRight
import Mathlib.Tactic

namespace CacheForge

abbrev Str := List Char

def isspace (c : Char) : Bool :=
  c == ' ' || c == '\t' || c == '\n' || c == '\x0b' || c == '\x0c' || c == '\r'

def toUpper (s : Str) : Str := s.map Char.toUpper

def int64Min : Int := -9223372036854775808
def int64Max : Int := 9223372036854775807

def wrap64 (x : Int) : Int := x.bmod 18446744073709551616
def wrap32 (x : Int) : Int := x.bmod 4294967296

def signOf : Str → Bool × Str
  | '-' :: s => (true, s)
  | '+' :: s => (false, s)
  | s => (false, s)

def checked64 (value : Int) : Option Int :=
  if int64Min ≤ value ∧ value ≤ int64Max then some value else none

def stoll (s : Str) : Option Int :=
  let (negative, rest) := signOf (s.dropWhile isspace)
  let digits := rest.takeWhile Char.isDigit
  if digits = [] then none
  else
    let n : Int := Nat.ofDigitChars 10 digits 0
    checked64 (if negative then -n else n)

def stdToString (n : Int) : Str :=
  if n < 0 then '-' :: Nat.toDigits 10 n.natAbs else Nat.toDigits 10 n.natAbs

theorem isDigit_not_isspace {c : Char} (h : c.isDigit = true) : isspace c = false := by
  by_contra hs
  rw [Bool.not_eq_false] at hs
  simp only [isspace, Bool.or_eq_true, beq_iff_eq] at hs
  rcases hs with ((((rfl | rfl) | rfl) | rfl) | rfl) | rfl <;> simp at h

theorem toDigits_isDigit {n : Nat} {c : Char} (h : c ∈ Nat.toDigits 10 n) : c.isDigit = true :=
  Nat.isDigit_of_mem_toDigits (by decide) (by decide) h

theorem stdToString_char {n : Int} {c : Char} (h : c ∈ stdToString n) :
    c = '-' ∨ c.isDigit = true := by
  unfold stdToString at h
  split at h
  · rcases List.mem_cons.mp h with rfl | h
    · exact Or.inl rfl
    · exact Or.inr (toDigits_isDigit h)
  · exact Or.inr (toDigits_isDigit h)

theorem stdToString_ne_nil (n : Int) : stdToString n ≠ [] := by
  unfold stdToString
  split
  · simp
  · exact Nat.toDigits_ne_nil

theorem stdToString_not_isspace {n : Int} {c : Char} (h : c ∈ stdToString n) :
    isspace c = false := by
  rcases stdToString_char h with rfl | hd
  · decide
  · exact isDigit_not_isspace hd

theorem takeWhile_all {p : Char → Bool} {s : Str} (h : ∀ c ∈ s, p c = true) :
    s.takeWhile p = s := List.takeWhile_eq_self_iff.mpr h

theorem span_run {p : Char → Bool} {run tail : Str} (hr : ∀ c ∈ run, p c = true)
    (ht : ∀ c ∈ tail.head?, p c = false) :
    (run ++ tail).takeWhile p = run ∧ (run ++ tail).dropWhile p = tail := by
  rw [List.takeWhile_append_of_pos hr, List.dropWhile_append_of_pos hr]
  cases tail with
  | nil => simp
  | cons c cs => simp [ht c (by simp)]

theorem signOf_digits {s : Str} (h : ∀ c ∈ s, c.isDigit = true) : signOf s = (false, s) := by
  unfold signOf
  split
  · rename_i t
    have := h '-' (by simp)
    simp at this
  · rename_i t
    have := h '+' (by simp)
    simp at this
  · rfl

theorem stoll_stdToString {n : Int} (lo : int64Min ≤ n) (hi : n ≤ int64Max) :
    stoll (stdToString n) = some n := by
  have hskip : (stdToString n).dropWhile isspace = stdToString n := by
    rw [List.dropWhile_eq_self_iff]
    intro hl
    simpa using stdToString_not_isspace (List.getElem_mem hl)
  have hval : ((Nat.ofDigitChars 10 (Nat.toDigits 10 n.natAbs) 0 : Nat) : Int) = n.natAbs := by
    rw [Nat.ofDigitChars_ten_toDigits]
  have htake : (Nat.toDigits 10 n.natAbs).takeWhile Char.isDigit = Nat.toDigits 10 n.natAbs :=
    takeWhile_all (fun c hc => toDigits_isDigit hc)
  simp only [stoll, hskip]
  by_cases hn : n < 0
  · have hs : signOf (stdToString n) = (true, Nat.toDigits 10 n.natAbs) := by
      simp [stdToString, hn, signOf]
    simp only [hs, htake, hval, Nat.toDigits_ne_nil, if_false, if_true]
    have hv : -((n.natAbs : Nat) : Int) = n := by omega
    rw [hv, checked64, if_pos ⟨lo,hi⟩]
  · have hs : signOf (stdToString n) = (false, Nat.toDigits 10 n.natAbs) := by
      have hd : stdToString n = Nat.toDigits 10 n.natAbs := by simp [stdToString, hn]
      rw [hd]
      exact signOf_digits (fun c hc => toDigits_isDigit hc)
    simp only [hs, htake, hval, Nat.toDigits_ne_nil, if_false, Bool.false_eq_true]
    have hv : ((n.natAbs : Nat) : Int) = n := by omega
    rw [hv, checked64, if_pos ⟨lo,hi⟩]

theorem toDigits_inj {m n : Nat} (h : Nat.toDigits 10 m = Nat.toDigits 10 n) : m = n := by
  have hv := congrArg (fun ds => Nat.ofDigitChars 10 ds 0) h
  simpa only [Nat.ofDigitChars_ten_toDigits] using hv

theorem toDigits_unsigned (n : Nat) (s : Str) : '-' :: s ≠ Nat.toDigits 10 n := by
  intro h
  have hd : Char.isDigit '-' = true := toDigits_isDigit (n := n) (by simp [← h])
  simp at hd

theorem stdToString_injective : Function.Injective stdToString := by
  intro m n h
  unfold stdToString at h
  split at h <;> split at h
  · have habs := toDigits_inj (List.cons.inj h).2
    omega
  · exact absurd h (toDigits_unsigned _ _)
  · exact absurd h.symm (toDigits_unsigned _ _)
  · have habs := toDigits_inj h
    omega

theorem checked64_some {v n : Int} (h : checked64 v = some n) :
    v = n ∧ int64Min ≤ n ∧ n ≤ int64Max := by
  unfold checked64 at h
  split at h
  · rename_i hr
    cases h
    exact ⟨rfl,hr⟩
  · simp at h

theorem stoll_range {s : Str} {n : Int} (h : stoll s = some n) : int64Min ≤ n ∧ n ≤ int64Max := by
  simp only [stoll] at h
  split at h
  · simp at h
  · exact (checked64_some h).2

end CacheForge
