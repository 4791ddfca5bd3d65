import CacheForge.Protocol.Deadlines

namespace CacheForge

inductive Numeral : Str → Int → Prop
  | plain {ds : Str} (hne : ds ≠ []) (hd : ∀ c ∈ ds, c.isDigit = true) :
      Numeral ds (Nat.ofDigitChars 10 ds 0)
  | plus {ds : Str} (hne : ds ≠ []) (hd : ∀ c ∈ ds, c.isDigit = true) :
      Numeral ('+' :: ds) (Nat.ofDigitChars 10 ds 0)
  | minus {ds : Str} (hne : ds ≠ []) (hd : ∀ c ∈ ds, c.isDigit = true) :
      Numeral ('-' :: ds) (-(Nat.ofDigitChars 10 ds 0 : Int))

def signedValue (negative : Bool) (ds : Str) : Int :=
  if negative then -(Nat.ofDigitChars 10 ds 0 : Int) else Nat.ofDigitChars 10 ds 0

def Integer64 (a : Str) : Prop := ∃ n, Numeral a n ∧ int64Min ≤ n ∧ n ≤ int64Max

structure Scanned (a : Str) (n : Int) (blank number tail : Str) : Prop where
  text : a = blank ++ (number ++ tail)
  spaces : ∀ c ∈ blank, isspace c = true
  numeral : Numeral number n
  stop : ∀ c ∈ tail.head?, c.isDigit = false

theorem checked64_eq_some {v n : Int} :
    checked64 v = some n ↔ v = n ∧ int64Min ≤ n ∧ n ≤ int64Max := by
  constructor
  · exact checked64_some
  · rintro ⟨rfl,hr⟩
    exact if_pos hr

theorem signOf_digit {c : Char} (hc : c.isDigit = true) (s : Str) :
    signOf (c :: s) = (false, c :: s) := by
  unfold signOf
  split
  · rename_i t h
    cases h
    exact absurd hc (by decide)
  · rename_i t h
    cases h
    exact absurd hc (by decide)
  · rfl

theorem signOf_splits (s : Str) : ∃ sign, s = sign ++ (signOf s).2 ∧
    ∀ ds, ds ≠ [] → (∀ c ∈ ds, c.isDigit = true) →
      Numeral (sign ++ ds) (signedValue (signOf s).1 ds) := by
  unfold signOf
  split
  · exact ⟨['-'],rfl,fun ds hne hd => .minus hne hd⟩
  · exact ⟨['+'],rfl,fun ds hne hd => .plus hne hd⟩
  · exact ⟨[],rfl,fun ds hne hd => .plain hne hd⟩

namespace Numeral

variable {w : Str} {n : Int}

theorem signOf_append (h : Numeral w n) (tail : Str) : ∃ negative ds,
    signOf (w ++ tail) = (negative, ds ++ tail) ∧ ds ≠ [] ∧ (∀ c ∈ ds, c.isDigit = true) ∧
      n = signedValue negative ds := by
  cases h with
  | @plain ds hne hd =>
    obtain ⟨c,cs,rfl⟩ := List.exists_cons_of_ne_nil hne
    exact ⟨false,c :: cs,signOf_digit (hd c (by simp)) _,hne,hd,rfl⟩
  | @plus ds hne hd => exact ⟨false,ds,rfl,hne,hd,rfl⟩
  | @minus ds hne hd => exact ⟨true,ds,rfl,hne,hd,rfl⟩

theorem shape (h : Numeral w n) :
    ∃ c cs, w = c :: cs ∧ isspace c = false ∧ ∀ d ∈ cs, d.isDigit = true := by
  cases h with
  | @plain ds hne hd =>
    obtain ⟨c,cs,rfl⟩ := List.exists_cons_of_ne_nil hne
    exact ⟨c,cs,rfl,isDigit_not_isspace (hd c (by simp)),fun d hm => hd d (by simp [hm])⟩
  | @plus ds hne hd => exact ⟨'+',ds,rfl,by decide,hd⟩
  | @minus ds hne hd => exact ⟨'-',ds,rfl,by decide,hd⟩

end Numeral

theorem stoll_scanned {a blank number tail : Str} {n : Int}
    (h : Scanned a n blank number tail) : stoll a = checked64 n := by
  obtain ⟨negative,ds,hsign,hne,hd,hn⟩ := h.numeral.signOf_append tail
  have hskip : a.dropWhile isspace = number ++ tail := by
    obtain ⟨c,cs,hw,hc,-⟩ := h.numeral.shape
    rw [h.text]
    exact (span_run h.spaces (by simp [hw, hc])).2
  simp only [stoll, hskip, hsign, (span_run hd h.stop).1, hne, if_false]
  rw [hn, signedValue]

theorem stoll_scans {a : Str} {n : Int} (h : stoll a = some n) :
    ∃ blank number tail, Scanned a n blank number tail := by
  obtain ⟨sign,hsign,hnum⟩ := signOf_splits (a.dropWhile isspace)
  simp only [stoll] at h
  split at h
  · simp at h
  · rename_i hne
    have hn := (checked64_some h).1
    refine ⟨a.takeWhile isspace,sign ++ (signOf (a.dropWhile isspace)).2.takeWhile Char.isDigit,
      (signOf (a.dropWhile isspace)).2.dropWhile Char.isDigit,?_,?_,?_,?_⟩
    · rw [List.append_assoc, List.takeWhile_append_dropWhile, ← hsign,
        List.takeWhile_append_dropWhile]
    · exact fun c hc => List.mem_takeWhile_imp hc
    · exact hn ▸ hnum _ hne (fun c hc => List.mem_takeWhile_imp hc)
    · intro c hc
      obtain ⟨cs,hcs⟩ := List.head?_eq_some_iff.mp hc
      exact dropWhile_head hcs

theorem stoll_accepts_iff {a : Str} : stoll a ≠ none ↔
    ∃ blank number tail, a = blank ++ (number ++ tail) ∧ (∀ c ∈ blank, isspace c = true) ∧
      Integer64 number ∧ ∀ c ∈ tail.head?, c.isDigit = false := by
  constructor
  · intro h
    obtain ⟨n,hn⟩ := Option.ne_none_iff_exists'.mp h
    obtain ⟨blank,number,tail,hs⟩ := stoll_scans hn
    exact ⟨blank,number,tail,hs.text,hs.spaces,⟨n,hs.numeral,stoll_range hn⟩,hs.stop⟩
  · rintro ⟨blank,number,tail,htext,hspaces,⟨n,hnum,hrange⟩,hstop⟩
    rw [stoll_scanned ⟨htext,hspaces,hnum,hstop⟩, checked64_eq_some.mpr ⟨rfl,hrange⟩]
    simp

theorem Integer64.accepted {a : Str} (h : Integer64 a) : stoll a ≠ none :=
  stoll_accepts_iff.mpr ⟨[],a,[],by simp,by simp,h,by simp⟩

def Padded (a : Str) : Prop :=
  ∃ blank number tail, a = blank ++ (number ++ tail) ∧ (blank ≠ [] ∨ tail ≠ []) ∧
    (∀ c ∈ blank, isspace c = true) ∧ Integer64 number ∧ ∀ c ∈ tail.head?, c.isDigit = false

theorem Padded.accepted {a : Str} (h : Padded a) : stoll a ≠ none := by
  obtain ⟨blank,number,tail,htext,-,hrest⟩ := h
  exact stoll_accepts_iff.mpr ⟨blank,number,tail,htext,hrest⟩

theorem Padded.not_integer64 {a : Str} (h : Padded a) : ¬Integer64 a := by
  rintro ⟨n,hnum,-⟩
  obtain ⟨blank,number,tail,htext,hne,hspaces,⟨m,hm,-⟩,hstop⟩ := h
  obtain ⟨c,cs,rfl,hc,hcs⟩ := hnum.shape
  obtain ⟨d,ds,rfl,-,-⟩ := hm.shape
  cases blank with
  | cons e es =>
    obtain ⟨rfl,-⟩ := List.cons.inj htext
    simp [hspaces c (by simp)] at hc
  | nil =>
    obtain ⟨e,es,rfl⟩ := List.exists_cons_of_ne_nil (hne.resolve_left (by simp))
    obtain ⟨-,rfl⟩ := List.cons.inj htext
    have he := hstop e (by simp)
    simp [hcs e (by simp)] at he

theorem accepted_iff {a : Str} : stoll a ≠ none ↔ Integer64 a ∨ Padded a := by
  constructor
  · intro h
    obtain ⟨blank,number,tail,htext,hspaces,hnum,hstop⟩ := stoll_accepts_iff.mp h
    by_cases hpad : blank ≠ [] ∨ tail ≠ []
    · exact Or.inr ⟨blank,number,tail,htext,hpad,hspaces,hnum,hstop⟩
    · rw [not_or, not_not, not_not] at hpad
      refine Or.inl ?_
      rwa [htext, hpad.1, hpad.2, List.nil_append, List.append_nil]
  · rintro (h | h)
    · exact h.accepted
    · exact h.accepted

theorem expire_rejects_iff (hash : Str → Nat) (d : Dispatcher) (r : Readings) (k a : Str)
    (rest : List Str) :
    (d.dispatch hash r ⟨.expire, k :: a :: rest⟩).1 =
        errorResponse "value is not an integer or out of range" ∧
      (d.dispatch hash r ⟨.expire, k :: a :: rest⟩).2.storage = d.storage ∧
      (d.dispatch hash r ⟨.expire, k :: a :: rest⟩).2.aofWriter = d.aofWriter ↔
    stoll a = none := by
  cases ha : stoll a with
  | none => simp [Dispatcher.dispatch, Dispatcher.dispatchExpire, ha]
  | some seconds =>
    have hreply := (dispatch_expire hash r (k := k) rest d ha).1
    refine iff_of_false (fun h => ?_) (by simp)
    have hhead := congrArg List.head? (hreply.symm.trans h.1)
    rw [integerResponse_head, errorResponse_head] at hhead
    exact absurd hhead (by decide)

theorem expire_number_checked_iff (hash : Str → Nat) (d : Dispatcher) (r : Readings) (k a : Str)
    (rest : List Str) :
    let out := d.dispatch hash r ⟨.expire, k :: a :: rest⟩
    ((out.1 = errorResponse "value is not an integer or out of range" ∧
        out.2.storage = d.storage ∧ out.2.aofWriter = d.aofWriter) ↔ ¬Integer64 a) ↔
      ¬∃ blank number tail, a = blank ++ (number ++ tail) ∧ (blank ≠ [] ∨ tail ≠ []) ∧
        (∀ c ∈ blank, isspace c = true) ∧ Integer64 number ∧
        ∀ c ∈ tail.head?, c.isDigit = false := by
  intro out
  rw [expire_rejects_iff]
  have hexact := accepted_iff (a := a)
  constructor
  · intro h hpad
    exact Padded.accepted hpad (h.mpr (Padded.not_integer64 hpad))
  · intro hpad
    rw [← not_iff_not, not_not]
    exact hexact.trans (or_iff_left hpad)

theorem trailing_text_accepted :
    ¬Integer64 "10abc".toList ∧
      (storedKey.dispatch (fun _ => 0) ⟨5, 5⟩ (parseCommand "EXPIRE k 10abc".toList)).1 =
        ":1\n".toList ∧
      (storedKey.dispatch (fun _ => 0) ⟨5, 5⟩
        (parseCommand "EXPIRE k 10abc".toList)).2.storage.lookup (fun _ => 0) ['k'] =
          some (['v'], some 10000000005) := by
  refine ⟨?_,by decide +kernel,by decide +kernel⟩
  refine Padded.not_integer64 ⟨[],['1', '0'],['a', 'b', 'c'],by decide,by simp,by simp,
    ⟨10,.plain (by simp) (by simp),by decide,by decide⟩,by simp⟩

end CacheForge
