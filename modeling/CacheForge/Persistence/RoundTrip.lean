import CacheForge.Protocol.Tokens
import CacheForge.Storage.AofWriter

namespace CacheForge

def lineBreak (c : Char) : Bool := c == '\n' || c == '\x0b' || c == '\x0c' || c == '\r'

def Safe (s : Str) : Prop := s.any needsQuote = true ∨ s.any lineBreak = false

instance (s : Str) : Decidable (Safe s) := inferInstanceAs (Decidable (_ ∨ _))

theorem isspace_of_lineBreak {c : Char} (h : lineBreak c = true) : isspace c = true := by
  simp only [lineBreak, isspace, Bool.or_eq_true, beq_iff_eq] at h ⊢
  tauto

theorem quoted_or_lineBreak {c : Char} (h : isspace c = true) :
    needsQuote c = true ∨ lineBreak c = true := by
  simp only [lineBreak, needsQuote, isspace, Bool.or_eq_true, beq_iff_eq] at h ⊢
  tauto

theorem unsafe_bare {s : Str} (h : ¬Safe s) :
    quoteIfNeeded s = s ∧ s.any needsQuote = false ∧ '"' ∉ s ∧ ∃ c ∈ s, isspace c = true := by
  simp only [Safe, not_or, Bool.not_eq_true, Bool.not_eq_false] at h
  obtain ⟨hq,hb⟩ := h
  refine ⟨by simp [quoteIfNeeded, hq],hq,?_,?_⟩
  · intro hm
    have := List.any_eq_false.mp hq _ hm
    simp [needsQuote] at this
  · obtain ⟨c,hc,hl⟩ := List.any_eq_true.mp hb
    exact ⟨c,hc,isspace_of_lineBreak hl⟩

theorem safe_bare {s : Str} (hs : Safe s) (hq : s.any needsQuote = false) :
    ∀ c ∈ s, isspace c = false := by
  intro c hc
  have hb : s.any lineBreak = false := by
    rcases hs with h | h
    · simp [hq] at h
    · exact h
  by_contra hsp
  rcases quoted_or_lineBreak (by simpa using hsp) with h | h
  · exact List.any_eq_false.mp hq c hc h
  · exact List.any_eq_false.mp hb c hc h

theorem quotedToken_escape (s rest : Str) :
    quotedToken (escape s ++ '"' :: rest) = (s, rest) := by
  induction s with
  | nil => simp [escape, quotedToken]
  | cons c cs ih =>
    have hstep : escape (c :: cs) = (if c = '"' ∨ c = '\\' then ['\\', c] else [c]) ++ escape cs := by
      simp [escape]
    rw [hstep]
    by_cases hc : c = '"' ∨ c = '\\'
    · simp [hc, quotedToken, ih]
    · simp only [hc, if_false, List.cons_append, List.nil_append]
      rw [not_or] at hc
      rw [quotedToken]
      · simp [hc.1, ih]
      · intro h; exact absurd h hc.2
      · intro _ _ h; exact absurd h hc.2

theorem tokenize_quoted (s rest : Str) :
    tokenize ('"' :: (escape s ++ '"' :: rest)) = pushToken s (tokenize rest) := by
  have hd : ('"' :: (escape s ++ '"' :: rest)).dropWhile isspace =
      '"' :: (escape s ++ '"' :: rest) := by
    simp [isspace]
  rw [tokenize_next hd]
  simp [nextToken, quotedToken_escape]

theorem tokenize_quoteIfNeeded {s : Str} (rest : Str) (hne : s ≠ []) (hs : Safe s)
    (hb : Boundary rest) :
    tokenize (quoteIfNeeded s ++ rest) = s :: tokenize rest := by
  cases hq : s.any needsQuote with
  | true =>
    have hid : quoteIfNeeded s ++ rest = '"' :: (escape s ++ '"' :: rest) := by
      simp [quoteIfNeeded, hq]
    rw [hid, tokenize_quoted, pushToken, if_neg hne]
  | false =>
    have hbare := safe_bare hs hq
    have hhead : s.head? ≠ some '"' := fun h => by
      have := List.any_eq_false.mp hq _ (List.mem_of_mem_head? h)
      simp [needsQuote] at this
    have hid : quoteIfNeeded s = s := by simp [quoteIfNeeded, hq]
    rw [hid]
    exact tokenize_bare hne hbare hhead hb

theorem quoteIfNeeded_last {s : Str} (hs : Safe s) :
    ∀ c ∈ (quoteIfNeeded s).getLast?, isspace c = false := by
  intro c hc
  unfold quoteIfNeeded at hc
  split at hc
  · rw [← List.cons_append, List.getLast?_concat, Option.mem_some_iff] at hc
    subst hc
    decide
  · rename_i hq
    exact safe_bare hs (by simpa using hq) c (List.mem_of_mem_getLast? hc)

theorem quoteIfNeeded_ne_nil {s : Str} (hne : s ≠ []) : quoteIfNeeded s ≠ [] := by
  unfold quoteIfNeeded
  split
  · simp
  · exact hne

theorem quoteIfNeeded_mem {s : Str} {c : Char} (h : c ∈ quoteIfNeeded s) :
    c ∈ s ∨ c = '"' ∨ c = '\\' := by
  unfold quoteIfNeeded at h
  split at h
  · simp only [List.mem_cons, List.mem_append, List.not_mem_nil, or_false, escape,
      List.mem_flatMap] at h
    rcases h with rfl | ⟨d,hd,hc⟩ | rfl
    · exact Or.inr (Or.inl rfl)
    · split at hc
      · simp only [List.mem_cons, List.not_mem_nil, or_false] at hc
        rcases hc with rfl | rfl
        · exact Or.inr (Or.inr rfl)
        · exact Or.inl hd
      · simp only [List.mem_cons, List.not_mem_nil, or_false] at hc
        exact Or.inl (hc ▸ hd)
    · exact Or.inr (Or.inl rfl)
  · exact Or.inl h

theorem trimmed_safe {s : Str} (rest : Str) (hne : s ≠ []) (hs : Safe s) (hb : Boundary rest) :
    tokenize ((' ' :: (quoteIfNeeded s ++ rest)).rdropWhile isspace) =
      s :: tokenize (rest.rdropWhile isspace) := by
  have hlast : ∀ c ∈ (' ' :: quoteIfNeeded s).getLast?, isspace c = false := by
    have hq := quoteIfNeeded_ne_nil hne
    rw [List.getLast?_cons, List.getLast?_eq_some_getLast hq]
    intro c hc
    exact quoteIfNeeded_last hs c (by simpa [List.getLast?_eq_some_getLast hq] using hc)
  rw [← List.cons_append, rdropWhile_solid _ hlast (by simp), List.cons_append,
    tokenize_space _ (by decide), tokenize_quoteIfNeeded _ hne hs (hb.rdropWhile isspace)]

theorem trimmed_last {s : Str} (hne : s ≠ []) :
    (∃ ts, tokenize ((' ' :: quoteIfNeeded s).rdropWhile isspace) = s :: ts) ↔ Safe s := by
  constructor
  · rintro ⟨ts,h⟩
    by_contra hs
    obtain ⟨hid,-,hquote,c,hc,hsp⟩ := unsafe_bare hs
    rw [hid] at h
    have hhead : (((' ' :: s).rdropWhile isspace).dropWhile isspace).head? ≠ some '"' := by
      intro hh
      have hm := (List.dropWhile_suffix isspace).subset (List.mem_of_mem_head? hh)
      have hm' := (List.rdropWhile_prefix isspace (' ' :: s)).subset hm
      simp [hquote] at hm'
    simp [first_token_bare hhead h c hc] at hsp
  · intro hs
    have h := trimmed_safe [] hne hs (by simp [Boundary])
    simp only [List.append_nil] at h
    exact ⟨_,h⟩

theorem trimmed_first {s rest : Str} (hne : s ≠ []) (hb : Boundary rest)
    (hrest : '"' ∉ rest ∨ ∃ v, v.any needsQuote = true ∧ rest = ' ' :: quoteIfNeeded v) {ts : List Str}
    (h : tokenize ((' ' :: (quoteIfNeeded s ++ rest)).rdropWhile isspace) = s :: ts) : Safe s := by
  by_contra hs
  obtain ⟨hid,hnq,hquote,c,hc,hsp⟩ := unsafe_bare hs
  rw [hid] at h
  by_cases hhead : (((' ' :: (s ++ rest)).rdropWhile isspace).dropWhile isspace).head? = some '"'
  · rcases hrest with hr | ⟨v,hv,rfl⟩
    · have hm := (List.dropWhile_suffix isspace).subset (List.mem_of_mem_head? hhead)
      have hm' := (List.rdropWhile_prefix isspace (' ' :: (s ++ rest))).subset hm
      simp [hquote, hr] at hm'
    · have hvne : v ≠ [] := by rintro rfl; simp at hv
      have hvs : Safe v := Or.inl hv
      have hstay : (' ' :: (s ++ ' ' :: quoteIfNeeded v)).rdropWhile isspace =
          ' ' :: (s ++ ' ' :: quoteIfNeeded v) := by
        apply rdropWhile_stays _ (by simp)
        intro d hd
        have hq := quoteIfNeeded_ne_nil hvne
        refine quoteIfNeeded_last hvs d ?_
        rw [List.getLast?_eq_some_getLast hq]
        simpa [List.getLast?_cons, List.getLast?_append, List.getLast?_eq_some_getLast hq] using hd
      rw [hstay] at h hhead
      have hblank : s.dropWhile isspace = [] := by
        cases hd : s.dropWhile isspace with
        | nil => rfl
        | cons d ds =>
          have hdm : d ∈ s := (List.dropWhile_suffix isspace).subset (hd ▸ List.mem_cons_self)
          have hdrop : (' ' :: (s ++ ' ' :: quoteIfNeeded v)).dropWhile isspace =
              d :: (ds ++ ' ' :: quoteIfNeeded v) := by
            simp [List.dropWhile_append, hd, isspace]
          rw [hdrop] at hhead
          simp only [List.head?_cons, Option.some.injEq] at hhead
          exact absurd (hhead ▸ hdm) hquote
      have hskip : (' ' :: (s ++ ' ' :: quoteIfNeeded v)).dropWhile isspace =
          (quoteIfNeeded v).dropWhile isspace := by
        simp [List.dropWhile_append, hblank, isspace]
      have htok := tokenize_quoteIfNeeded [] hvne hvs (by simp [Boundary])
      simp only [List.append_nil] at htok
      rw [tokenize_skip hskip, htok] at h
      obtain ⟨rfl,-⟩ := List.cons.inj h
      simp [hnq] at hv
  · simp [first_token_bare hhead h c hc] at hsp

def Survives (s : Str) : Prop := tokenize (quoteIfNeeded s) = [s]

instance (s : Str) : Decidable (Survives s) := inferInstanceAs (Decidable (_ = _))

theorem survives_iff {s : Str} : Survives s ↔ s ≠ [] ∧ Safe s := by
  constructor
  · intro h
    have hne : s ≠ [] := (tokenize_token (s := quoteIfNeeded s) (by rw [h]; simp)).1
    refine ⟨hne,?_⟩
    by_contra hs
    obtain ⟨hid,-,hquote,c,hc,hsp⟩ := unsafe_bare hs
    have hhead : (s.dropWhile isspace).head? ≠ some '"' := fun hh =>
      hquote ((List.dropWhile_suffix isspace).subset (List.mem_of_mem_head? hh))
    unfold Survives at h
    rw [hid] at h
    simp [first_token_bare hhead h c hc] at hsp
  · rintro ⟨hne,hs⟩
    have h := tokenize_quoteIfNeeded [] hne hs (by simp [Boundary])
    rwa [List.append_nil, tokenize_blank (s := []) rfl] at h

theorem takeArgs_one {n k : Str} {ts : List Str} :
    takeArgs 1 (n :: ts) = [k] ↔ ∃ us, ts = k :: us := by
  cases ts with
  | nil => simp [takeArgs]
  | cons t ts => simp [takeArgs]

theorem takeArgs_two {n k v : Str} {ts : List Str} :
    takeArgs 2 (n :: ts) = [k, v] ↔ ∃ us, ts = k :: v :: us := by
  rcases ts with _ | ⟨t,_ | ⟨u,us⟩⟩ <;> simp [takeArgs]

theorem parse_set_line (k v : Str) :
    parseCommand (Record.set k v).line = ⟨.set, takeArgs 2 (['S', 'E', 'T'] ::
      tokenize ((' ' :: (quoteIfNeeded k ++ ' ' :: quoteIfNeeded v)).rdropWhile isspace))⟩ := by
  have h := parseCommand_named ['S', 'E', 'T'] (quoteIfNeeded k ++ ' ' :: quoteIfNeeded v)
    (by simp) (by simp [isspace]) (by simp)
  simpa [Record.line, commandOf, toUpper] using h

theorem parse_del_line (k : Str) :
    parseCommand (Record.del k).line = ⟨.del, takeArgs 1 (['D', 'E', 'L'] ::
      tokenize ((' ' :: quoteIfNeeded k).rdropWhile isspace))⟩ := by
  have h := parseCommand_named ['D', 'E', 'L'] (quoteIfNeeded k)
    (by simp) (by simp [isspace]) (by simp)
  simpa [Record.line, commandOf, toUpper] using h

theorem parse_expire_line (k : Str) (n : Int) :
    parseCommand (Record.expire k n).line = ⟨.expire, takeArgs 2 (['E', 'X', 'P', 'I', 'R', 'E'] ::
      tokenize ((' ' :: (quoteIfNeeded k ++ ' ' :: stdToString n)).rdropWhile isspace))⟩ := by
  have h := parseCommand_named ['E', 'X', 'P', 'I', 'R', 'E']
    (quoteIfNeeded k ++ ' ' :: stdToString n) (by simp) (by simp [isspace]) (by simp)
  simpa [Record.line, commandOf, toUpper] using h

theorem parse_set_iff {k v : Str} (hk : k ≠ []) (hv : v ≠ []) :
    parseCommand (Record.set k v).line = ⟨.set, [k, v]⟩ ↔ Safe k ∧ Safe v := by
  rw [parse_set_line, Command.mk.injEq, takeArgs_two]
  simp only [true_and]
  constructor
  · rintro ⟨us,h⟩
    have hrest : '"' ∉ ' ' :: quoteIfNeeded v ∨
        ∃ w, w.any needsQuote = true ∧ ' ' :: quoteIfNeeded v = ' ' :: quoteIfNeeded w := by
      cases hq : v.any needsQuote with
      | true => exact Or.inr ⟨v,hq,rfl⟩
      | false =>
        refine Or.inl fun hm => ?_
        simp only [quoteIfNeeded, hq, Bool.false_eq_true, if_false, List.mem_cons] at hm
        rcases hm with hm | hm
        · exact absurd hm (by decide)
        · exact absurd (List.any_eq_false.mp hq _ hm) (by decide)
    have hks := trimmed_first hk (boundary_space _) hrest h
    rw [trimmed_safe _ hk hks (boundary_space _)] at h
    exact ⟨hks,(trimmed_last hv).mp ⟨us,(List.cons.inj h).2⟩⟩
  · rintro ⟨hks,hvs⟩
    obtain ⟨us,h⟩ := (trimmed_last hv).mpr hvs
    exact ⟨us,by rw [trimmed_safe _ hk hks (boundary_space _), h]⟩

theorem parse_del_iff {k : Str} (hk : k ≠ []) :
    parseCommand (Record.del k).line = ⟨.del, [k]⟩ ↔ Safe k := by
  rw [parse_del_line, Command.mk.injEq, takeArgs_one]
  simpa only [true_and] using trimmed_last hk

theorem stdToString_no_quote (n : Int) : '"' ∉ stdToString n := fun h => by
  rcases stdToString_char h with h | h <;> exact absurd h (by decide)

theorem tokenize_number (n : Int) :
    tokenize ((' ' :: stdToString n).rdropWhile isspace) = [stdToString n] := by
  have hstay : (' ' :: stdToString n).rdropWhile isspace = ' ' :: stdToString n := by
    apply rdropWhile_stays _ (by simp)
    intro c hc
    rw [List.getLast?_cons, List.getLast?_eq_some_getLast (stdToString_ne_nil n)] at hc
    simp only [Option.getD_some, Option.mem_some_iff] at hc
    exact stdToString_not_isspace (hc ▸ List.getLast_mem (stdToString_ne_nil n))
  have hbare := tokenize_bare (stdToString_ne_nil n) (fun c hc => stdToString_not_isspace hc)
    (fun h => stdToString_no_quote n (List.mem_of_mem_head? h)) (show Boundary [] by simp [Boundary])
  rw [hstay, tokenize_space _ (by decide)]
  rwa [List.append_nil, tokenize_blank (s := []) rfl] at hbare

theorem parse_expire_iff {k : Str} (n : Int) (hk : k ≠ []) :
    parseCommand (Record.expire k n).line = ⟨.expire, [k, stdToString n]⟩ ↔ Safe k := by
  rw [parse_expire_line, Command.mk.injEq, takeArgs_two]
  simp only [true_and]
  constructor
  · rintro ⟨us,h⟩
    refine trimmed_first hk (boundary_space _) (Or.inl ?_) h
    simpa using stdToString_no_quote n
  · intro hs
    exact ⟨[],by rw [trimmed_safe _ hk hs (boundary_space _), tokenize_number]⟩

theorem line_newline_free {k v : Str} (hk : '\n' ∉ k) (hv : '\n' ∉ v) (n : Int) :
    '\n' ∉ (Record.set k v).line ∧ '\n' ∉ (Record.del k).line ∧
      '\n' ∉ (Record.expire k n).line := by
  have hq {s : Str} (hs : '\n' ∉ s) : '\n' ∉ quoteIfNeeded s := fun h => by
    rcases quoteIfNeeded_mem h with h | h | h
    · exact hs h
    · exact absurd h (by decide)
    · exact absurd h (by decide)
  have hn : '\n' ∉ stdToString n := fun h => by
    have := stdToString_not_isspace h
    exact absurd this (by decide)
  simp [Record.line, hq hk, hq hv, hn]

def Logged (f : AOFWriter → AOFWriter) (cmd : Command) : Prop :=
  ∃ l, (f AOFWriter.running).queue = [l] ∧ '\n' ∉ l ∧ parseCommand l = cmd

theorem logged_iff (r : Record) (cmd : Command) :
    Logged (AOFWriter.log r) cmd ↔ '\n' ∉ r.line ∧ parseCommand r.line = cmd := by
  constructor
  · rintro ⟨l,hl,h⟩
    simp only [AOFWriter.log, AOFWriter.enqueue, AOFWriter.running, Bool.not_true,
      Bool.false_eq_true, if_false, List.nil_append, List.cons.injEq, and_true] at hl
    exact hl ▸ h
  · intro h
    exact ⟨r.line,rfl,h⟩

theorem logged_line_round_trip (L : Str) (hL : '\n' ∉ L) :
    (∀ k v, parseCommand L = ⟨.set, [k, v]⟩ →
      (Logged (AOFWriter.logSet k v) ⟨.set, [k, v]⟩ ↔ Safe k ∧ Safe v)) ∧
    (∀ k, parseCommand L = ⟨.del, [k]⟩ →
      (Logged (AOFWriter.logDel k) ⟨.del, [k]⟩ ↔ Safe k)) ∧
    (∀ k a n, parseCommand L = ⟨.expire, [k, a]⟩ → stoll a = some n →
      (Logged (AOFWriter.logExpire k n) ⟨.expire, [k, stdToString n]⟩ ↔ Safe k)) := by
  have arg {cmd : Command} (h : parseCommand L = cmd) {a : Str} (ha : a ∈ cmd.args) :
      a ≠ [] ∧ '\n' ∉ a := by
    have hp := parseCommand_args (s := L) (h ▸ ha)
    exact ⟨hp.1,fun hc => hL (hp.2 _ hc)⟩
  refine ⟨?_,?_,?_⟩
  · intro k v h
    have hk := arg h (a := k) (by simp)
    have hv := arg h (a := v) (by simp)
    have hn := (line_newline_free hk.2 hv.2 0).1
    exact (logged_iff _ _).trans ((and_iff_right hn).trans (parse_set_iff hk.1 hv.1))
  · intro k h
    have hk := arg h (a := k) (by simp)
    have hn := (line_newline_free hk.2 hk.2 0).2.1
    exact (logged_iff _ _).trans ((and_iff_right hn).trans (parse_del_iff hk.1))
  · intro k a n h _
    have hk := arg h (a := k) (by simp)
    have hn := (line_newline_free hk.2 hk.2 n).2.2
    exact (logged_iff _ _).trans ((and_iff_right hn).trans (parse_expire_iff n hk.1))

theorem quoted_line_round_trip :
    Logged (AOFWriter.logSet "a key".toList ['v']) ⟨.set, ["a key".toList, ['v']]⟩ ∧
    Logged (AOFWriter.logDel ['k']) ⟨.del, [['k']]⟩ ∧
    Logged (AOFWriter.logExpire ['k'] 5) ⟨.expire, [['k'], stdToString 5]⟩ :=
  ⟨((logged_line_round_trip "SET \"a key\" v".toList (by decide)).1 _ _
      (by decide +kernel)).mpr (by decide),
    ((logged_line_round_trip "DEL k".toList (by decide)).2.1 _ (by decide +kernel)).mpr (by decide),
    ((logged_line_round_trip "EXPIRE k 05".toList (by decide)).2.2 _ "05".toList 5
      (by decide +kernel) (by decide +kernel)).mpr (by decide)⟩

theorem vertical_tab_splits_key :
    parseCommand "SET \"a\x0bb\" x".toList = ⟨.set, ["a\x0bb".toList, ['x']]⟩ ∧
    '\n' ∉ "SET \"a\x0bb\" x".toList ∧
    ¬Logged (AOFWriter.logSet "a\x0bb".toList ['x']) ⟨.set, ["a\x0bb".toList, ['x']]⟩ ∧
    (AOFWriter.logSet "a\x0bb".toList ['x'] AOFWriter.running).queue.map parseCommand =
      [⟨.set, [['a'], ['b']]⟩] := by
  refine ⟨by decide +kernel,by decide,?_,by decide +kernel⟩
  rintro ⟨l,hl,-,hp⟩
  have hq : (AOFWriter.logSet "a\x0bb".toList ['x'] AOFWriter.running).queue.map parseCommand =
      [⟨.set, ["a\x0bb".toList, ['x']]⟩] := by
    rw [hl, List.map_singleton, hp]
  revert hq
  decide +kernel

end CacheForge
