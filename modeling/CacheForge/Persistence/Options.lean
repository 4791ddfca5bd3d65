import CacheForge.Persistence.Frame

namespace CacheForge

structure Bare (s : Str) : Prop where
  ne_nil : s ≠ []
  solid : ∀ c ∈ s, isspace c = false
  unquoted : s.head? ≠ some '"'

namespace Bare

variable {s : Str}

theorem last (h : Bare s) : ∀ c ∈ s.getLast?, isspace c = false := fun c hc =>
  h.solid c (List.mem_of_mem_getLast? hc)

theorem safe (h : Bare s) : Safe s := by
  refine Or.inr (List.any_eq_false.mpr fun c hc hbreak => ?_)
  have hspace := isspace_of_lineBreak hbreak
  simp [h.solid c hc] at hspace

theorem survives (h : Bare s) : Survives s := survives_iff.mpr ⟨h.ne_nil,h.safe⟩

theorem newline_free (h : Bare s) : '\n' ∉ s := fun hc => by
  have hn := h.solid _ hc
  exact absurd hn (by decide)

end Bare

theorem parse_set_bare {k v : Str} (hk : Bare k) (hv : Bare v) (option : Str) :
    parseCommand (['S', 'E', 'T', ' '] ++ k ++ [' '] ++ v ++ ' ' :: option) = ⟨.set, [k, v]⟩ := by
  have hlast : ∀ c ∈ (' ' :: (k ++ ' ' :: v)).getLast?, isspace c = false := by
    have hx := List.getLast?_eq_some_getLast hv.ne_nil
    intro c hc
    refine hv.last c ?_
    simpa [List.getLast?_cons, List.getLast?_append, hx] using hc
  have htrim : (' ' :: (k ++ ' ' :: (v ++ ' ' :: option))).rdropWhile isspace =
      ' ' :: (k ++ ' ' :: (v ++ (' ' :: option).rdropWhile isspace)) := by
    simpa using rdropWhile_solid (' ' :: option) hlast (by simp)
  have htokens : tokenize (' ' :: (k ++ ' ' :: (v ++ (' ' :: option).rdropWhile isspace))) =
      k :: v :: tokenize ((' ' :: option).rdropWhile isspace) := by
    rw [tokenize_space _ (by decide),
      tokenize_bare hk.ne_nil hk.solid hk.unquoted (boundary_space _),
      tokenize_space _ (by decide),
      tokenize_bare hv.ne_nil hv.solid hv.unquoted ((boundary_space option).rdropWhile isspace)]
  have h := parseCommand_named ['S', 'E', 'T'] (k ++ ' ' :: (v ++ ' ' :: option))
    (by simp) (by simp [isspace]) (by simp)
  rw [htrim, htokens] at h
  simpa [commandOf, toUpper, takeArgs] using h

section

variable (hash : Str → Nat)

theorem dispatch_set (r : Readings) (k v : Str) (d : Dispatcher) :
    (d.dispatch hash r ⟨.set, [k, v]⟩).1 = okResponse ∧
      (d.dispatch hash r ⟨.set, [k, v]⟩).2.storage = (Record.set k v).apply hash r d.storage ∧
      (d.Running → (d.dispatch hash r ⟨.set, [k, v]⟩).2.logged =
        d.logged ++ [(Record.set k v).line]) :=
  ⟨rfl,rfl,fun hrun => (dispatch_logged hash r ⟨.set, [k, v]⟩ hrun).2⟩

theorem replay_set_bare {k v : Str} (hk : Bare k) (hv : Bare v) (r : Readings) (p : Replayed) :
    (replayLine hash r (Record.set k v).line p).storage.lookup hash k = some (v, none) := by
  have hl : (Record.set k v).Loggable := by
    refine ⟨Record.line_clean ?_,?_,trivial⟩
    · simpa [Record.tokens] using ⟨hk.newline_free,hv.newline_free⟩
    · simpa [Record.tokens] using ⟨hk.survives,hv.survives⟩
  rw [replayLine_line hash r p hl]
  exact Record.apply_self hash r (.set k v) p.storage

theorem set_ex_sets_no_deadline (d : Dispatcher) (r : Readings) (k v seconds : Str)
    (hk : Bare k) (hv : Bare v) :
    let out := d.dispatch hash r
      (parseCommand (['S', 'E', 'T', ' '] ++ k ++ [' '] ++ v ++ [' ', 'E', 'X', ' '] ++ seconds))
    out.1 = okResponse ∧
    out.2.storage.lookup hash k = some (v, none) ∧
    (∀ x ≠ k, out.2.storage.lookup hash x = d.storage.lookup hash x ∨
      out.2.storage.lookup hash x = none ∧ out.2.storage.evictedKeys ≠ d.storage.evictedKeys) ∧
    (d.Running → ∃ line, out.2.logged = d.logged ++ [line] ∧ ∀ r' p,
      (replayLine hash r' line p).storage.lookup hash k = some (v, none)) ∧
    ¬∃ deadline, out.2.storage.lookup hash k = some (v, some deadline) := by
  have hparse : parseCommand (['S', 'E', 'T', ' '] ++ k ++ [' '] ++ v ++ [' ', 'E', 'X', ' '] ++
      seconds) = ⟨.set, [k, v]⟩ := by
    simpa using parse_set_bare hk hv ('E' :: 'X' :: ' ' :: seconds)
  intro out
  have hout : out = d.dispatch hash r ⟨.set, [k, v]⟩ := congrArg (d.dispatch hash r) hparse
  obtain ⟨hreply,hstorage,hlog⟩ := dispatch_set hash r k v d
  have hlookup : out.2.storage.lookup hash k = some (v, none) := by
    rw [hout, hstorage]
    exact Record.apply_self hash r (.set k v) d.storage
  refine ⟨hout ▸ hreply,hlookup,fun x hx => ?_,fun hrun => ?_,?_⟩
  · rw [hout, hstorage]
    exact Record.apply_other hash r (show x ≠ (Record.set k v).key from hx) d.storage
  · exact ⟨_,hout ▸ hlog hrun,replay_set_bare hash hk hv⟩
  · rw [hlookup]
    simp

end

theorem minute_option_ignored :
    let out := (Dispatcher.fresh 48 0).dispatch (fun _ => 0) ⟨5, 5⟩
      (parseCommand (['S', 'E', 'T', ' '] ++ ['k'] ++ [' '] ++ ['v'] ++ [' ', 'E', 'X', ' '] ++
        ['6', '0']))
    ¬∃ deadline, out.2.storage.lookup (fun _ => 0) ['k'] = some (['v'], some deadline) :=
  (set_ex_sets_no_deadline (fun _ => 0) (.fresh 48 0) ⟨5, 5⟩ ['k'] ['v'] ['6', '0']
    ⟨by simp,by simp [isspace],by simp⟩ ⟨by simp,by simp [isspace],by simp⟩).2.2.2.2

def optionStored : Str × Dispatcher :=
  (Dispatcher.fresh 48 0).dispatch (fun _ => 0) ⟨5, 5⟩ (parseCommand "SET k v EX 60".toList)

theorem set_ex_key_never_expires :
    optionStored.1 = okResponse ∧
      optionStored.2.storage.lookup (fun _ => 0) ['k'] = some (['v'], none) ∧
      optionStored.2.logged = ["SET k v".toList] ∧
      (optionStored.2.dispatch (fun _ => 0) ⟨100000000000, 100000000000⟩
        (parseCommand "TTL k".toList)).1 = ":-1\n".toList := by
  decide +kernel

end CacheForge
