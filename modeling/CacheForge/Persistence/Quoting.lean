import CacheForge.Persistence.RoundTrip

namespace CacheForge

namespace CommandType

def name : CommandType → Str
  | ping => ['P', 'I', 'N', 'G']
  | set => ['S', 'E', 'T']
  | get => ['G', 'E', 'T']
  | del => ['D', 'E', 'L']
  | expire => ['E', 'X', 'P', 'I', 'R', 'E']
  | ttl => ['T', 'T', 'L']
  | stats => ['S', 'T', 'A', 'T', 'S']
  | unknown => []

def arity : CommandType → Nat
  | set => 2
  | get => 1
  | del => 1
  | expire => 2
  | ttl => 1
  | _ => 0

def keyed : List CommandType := [set, get, del, expire, ttl]

theorem name_solid {t : CommandType} (ht : t ∈ keyed) :
    t.name ≠ [] ∧ (∀ c ∈ t.name, isspace c = false) ∧ '"' ∉ t.name := by
  simp only [keyed, List.mem_cons, List.not_mem_nil, or_false] at ht
  rcases ht with rfl | rfl | rfl | rfl | rfl <;> simp [name, isspace]

theorem arity_pos {t : CommandType} (ht : t ∈ keyed) : 0 < t.arity := by
  simp only [keyed, List.mem_cons, List.not_mem_nil, or_false] at ht
  rcases ht with rfl | rfl | rfl | rfl | rfl <;> simp [arity]

end CommandType

theorem commandOf_name {t : CommandType} (ht : t ∈ CommandType.keyed) (ts : List Str) :
    commandOf (t.name :: ts) = ⟨t, takeArgs t.arity (t.name :: ts)⟩ := by
  simp only [CommandType.keyed, List.mem_cons, List.not_mem_nil, or_false] at ht
  rcases ht with rfl | rfl | rfl | rfl | rfl <;> rfl

theorem takeArgs_length (n : Nat) (ts : List Str) : (takeArgs n ts).length ≤ n := by
  unfold takeArgs
  split <;> simp

theorem parseCommand_arity (s : Str) :
    (parseCommand s).args.length ≤ (parseCommand s).type.arity := by
  have hcommand (ts : List Str) : (commandOf ts).args.length ≤ (commandOf ts).type.arity := by
    unfold commandOf
    split
    · exact Nat.le_refl 0
    · simp only
      split_ifs <;> first
        | exact takeArgs_length _ _
        | exact Nat.le_refl 0
  unfold parseCommand
  simp only
  split
  · exact Nat.le_refl 0
  · exact hcommand _

def quoted (s : Str) : Str := '"' :: (escape s ++ ['"'])

def quotedArgs (args : List Str) : Str := args.flatMap (fun s => ' ' :: quoted s)

theorem quotedArgs_cons (s : Str) (args : List Str) :
    quotedArgs (s :: args) = ' ' :: '"' :: (escape s ++ '"' :: quotedArgs args) := by
  simp [quotedArgs, quoted]

theorem tokenize_quotedArgs (args : List Str) :
    tokenize (quotedArgs args) = args.filter (fun s => decide (s ≠ [])) := by
  induction args with
  | nil => exact tokenize_blank rfl
  | cons s args ih =>
    rw [quotedArgs_cons, tokenize_space _ (by decide), tokenize_quoted, ih, pushToken,
      List.filter_cons]
    by_cases hs : s = []
    · simp [hs]
    · simp [hs]

theorem quotedArgs_last (args : List Str) :
    ∀ c ∈ (quotedArgs args).getLast?, isspace c = false := by
  induction args with
  | nil => simp [quotedArgs]
  | cons s args ih =>
    intro c hc
    cases hq : quotedArgs args with
    | nil =>
      rw [quotedArgs_cons, hq, ← List.cons_append, ← List.cons_append, List.getLast?_concat,
        Option.mem_some_iff] at hc
      subst hc
      decide
    | cons d ds =>
      refine ih c ?_
      rw [hq]
      simpa [quotedArgs_cons, hq, List.getLast?_append, List.getLast?_cons] using hc

theorem parseCommand_quoted {t : CommandType} {args : List Str} (ht : t ∈ CommandType.keyed)
    (hne : args ≠ []) :
    parseCommand (t.name ++ quotedArgs args) =
      ⟨t, takeArgs t.arity (t.name :: args.filter (fun s => decide (s ≠ [])))⟩ := by
  obtain ⟨hname,hsolid,hquote⟩ := CommandType.name_solid ht
  obtain ⟨s,rest,rfl⟩ := List.exists_cons_of_ne_nil hne
  have hstay := rdropWhile_stays (quotedArgs_last (s :: rest)) (by simp [quotedArgs_cons])
  rw [← tokenize_quotedArgs, ← commandOf_name ht]
  rw [quotedArgs_cons] at hstay ⊢
  rw [parseCommand_named _ _ hname hsolid hquote, hstay]

theorem takeArgs_filter {name : Str} {args : List Str} {p : Str → Bool} (hne : args ≠ []) :
    takeArgs args.length (name :: args.filter p) = args ↔ ∀ s ∈ args, p s = true := by
  rw [← List.filter_eq_self]
  constructor
  · intro h
    by_cases hlen : args.length ≤ (args.filter p).length
    · exact List.filter_sublist.eq_of_length_le hlen
    · simp only [takeArgs, List.length_cons, ge_iff_le, Nat.add_le_add_iff_right, hlen,
        if_false] at h
      exact absurd h.symm hne
  · intro h
    rw [h]
    simp [takeArgs]

theorem quoted_arguments_parse_iff (t : CommandType) (args : List Str)
    (ht : t ∈ [.set, .get, .del, .expire, .ttl]) (hlen : args.length = t.arity) :
    parseCommand (t.name ++ quotedArgs args) = ⟨t, args⟩ ↔ ∀ s ∈ args, s ≠ [] := by
  have hne : args ≠ [] := by
    rintro rfl
    exact absurd hlen.symm (CommandType.arity_pos ht).ne'
  rw [parseCommand_quoted ht hne, Command.mk.injEq, ← hlen, takeArgs_filter hne]
  simp

theorem quoted_pair_parses :
    parseCommand (CommandType.set.name ++ quotedArgs ["a \"b\"".toList, ['\\']]) =
      ⟨.set, ["a \"b\"".toList, ['\\']]⟩ :=
  (quoted_arguments_parse_iff .set ["a \"b\"".toList, ['\\']] (by simp) rfl).mpr (by simp)

theorem empty_argument_dropped :
    CommandType.set.name ++ quotedArgs [[], ['v']] = "SET \"\" \"v\"".toList ∧
    parseCommand (CommandType.set.name ++ quotedArgs [[], ['v']]) = ⟨.set, []⟩ := by
  constructor
  · decide
  · decide +kernel

theorem safe_iff {s : Str} : Safe s ↔
    (∃ c ∈ s, c = ' ' ∨ c = '\t' ∨ c = '"' ∨ c = '\\') ∨
      ∀ c ∈ s, c ≠ '\n' ∧ c ≠ '\x0b' ∧ c ≠ '\x0c' ∧ c ≠ '\r' := by
  have hq : s.any needsQuote = true ↔ ∃ c ∈ s, c = ' ' ∨ c = '\t' ∨ c = '"' ∨ c = '\\' := by
    simp [needsQuote, or_assoc]
  have hb : s.any lineBreak = false ↔
      ∀ c ∈ s, c ≠ '\n' ∧ c ≠ '\x0b' ∧ c ≠ '\x0c' ∧ c ≠ '\r' := by
    simp [lineBreak, and_assoc]
  exact or_congr hq hb

theorem set_line_parses_iff (k v : Str) (hk : k ≠ []) (hv : v ≠ []) :
    parseCommand (['S', 'E', 'T', ' '] ++ quoteIfNeeded k ++ [' '] ++ quoteIfNeeded v) =
        ⟨.set, [k, v]⟩ ↔
      ∀ s ∈ [k, v], (∃ c ∈ s, c = ' ' ∨ c = '\t' ∨ c = '"' ∨ c = '\\') ∨
        ∀ c ∈ s, c ≠ '\n' ∧ c ≠ '\x0b' ∧ c ≠ '\x0c' ∧ c ≠ '\r' := by
  have h := parse_set_iff hk hv
  rw [safe_iff, safe_iff] at h
  exact h.trans (by simp)

theorem quoted_return_survives :
    parseCommand (['S', 'E', 'T', ' '] ++ quoteIfNeeded ['a', '\r', ' '] ++ [' '] ++
      quoteIfNeeded ['v']) = ⟨.set, [['a', '\r', ' '], ['v']]⟩ :=
  (set_line_parses_iff ['a', '\r', ' '] ['v'] (by simp) (by simp)).mpr (by simp)

end CacheForge
