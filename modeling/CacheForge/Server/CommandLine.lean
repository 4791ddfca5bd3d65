import CacheForge.Protocol.Text

namespace CacheForge

def int32Min : Int := -2 ^ 31

def int32Max : Int := 2 ^ 31 - 1

def stoi (s : Str) : Option Int :=
  match stoll s with
  | some n => if int32Min ≤ n ∧ n ≤ int32Max then some n else none
  | none => none

structure Options where
  port : Nat
  numThreads : Nat
  aofEnabled : Bool
  aofPath : Str
  deriving DecidableEq, Repr

def Options.default : Options := ⟨6380, 0, true, "./cache.aof".toList⟩

inductive Launch where
  | start (options : Options)
  | usage
  | error (message : String)
  deriving DecidableEq, Repr

def portOf (text : Str) : Except String Nat :=
  match stoi text with
  | none => .error "Error: invalid port number\n"
  | some p =>
      if p < 1 ∨ p > 65535 then .error "Error: port must be between 1 and 65535\n"
      else .ok p.toNat

def threadsOf (text : Str) : Except String Nat :=
  match stoi text with
  | none => .error "Error: invalid thread count\n"
  | some t => if t ≤ 0 then .error "Error: thread count must be greater than 0\n" else .ok t.toNat

def isFlag (text : Str) : Bool := text.head? = some '-'

def parseArgs : List Str → Options → Launch
  | [], o => .start o
  | arg :: rest, o =>
      if arg = "-p".toList ∨ arg = "--port".toList then
        match rest with
        | [] => .start o
        | value :: rest =>
            match portOf value with
            | .error message => .error message
            | .ok port => parseArgs rest { o with port := port }
      else if arg = "-t".toList ∨ arg = "--threads".toList then
        match rest with
        | [] => .start o
        | value :: rest =>
            match threadsOf value with
            | .error message => .error message
            | .ok numThreads => parseArgs rest { o with numThreads := numThreads }
      else if arg = "--aof-enabled".toList then
        match rest with
        | [] => .start o
        | value :: rest =>
            parseArgs rest { o with aofEnabled := value = "true".toList ∨ value = "1".toList }
      else if arg = "--aof-path".toList then
        match rest with
        | [] => .start o
        | value :: rest => parseArgs rest { o with aofPath := value }
      else if arg = "-h".toList ∨ arg = "--help".toList then .usage
      else if isFlag arg then parseArgs rest o
      else
        match portOf arg with
        | .error message => .error message
        | .ok port =>
            match rest with
            | [] => .start { o with port := port }
            | value :: rest =>
                if isFlag value then parseArgs (value :: rest) { o with port := port }
                else match threadsOf value with
                  | .error message => .error message
                  | .ok numThreads =>
                      parseArgs rest { o with port := port, numThreads := numThreads }

def Options.Valid (o : Options) : Prop :=
  1 ≤ o.port ∧ o.port ≤ 65535 ∧ (o.numThreads : Int) ≤ int32Max

instance (o : Options) : Decidable o.Valid := inferInstanceAs (Decidable (_ ∧ _))

def Launch.Sound (args : List Str) : Launch → Prop
  | .start o => o.Valid
  | .usage => "-h".toList ∈ args ∨ "--help".toList ∈ args
  | .error message =>
      ∃ text ∈ args, portOf text = .error message ∨ threadsOf text = .error message

theorem stoi_le {text : Str} {n : Int} (h : stoi text = some n) : n ≤ int32Max := by
  unfold stoi at h
  split at h
  · split at h
    · rename_i hn
      cases h
      exact hn.2
    · cases h
  · cases h

theorem portOf_valid {text : Str} {port : Nat} (h : portOf text = .ok port) :
    1 ≤ port ∧ port ≤ 65535 := by
  unfold portOf at h
  split at h
  · cases h
  · split at h
    · cases h
    · rename_i hp
      cases h
      omega

theorem threadsOf_valid {text : Str} {n : Nat} (h : threadsOf text = .ok n) :
    0 < n ∧ (n : Int) ≤ int32Max := by
  unfold threadsOf at h
  split at h
  · cases h
  · rename_i t ht
    have hle := stoi_le ht
    split at h
    · cases h
    · cases h
      omega

def valueFlags : List Str :=
  ["-p".toList, "--port".toList, "-t".toList, "--threads".toList, "--aof-enabled".toList,
    "--aof-path".toList]

def knownFlags : List Str :=
  ["-p".toList, "--port".toList, "-t".toList, "--threads".toList, "--aof-enabled".toList,
    "--aof-path".toList, "-h".toList, "--help".toList]

inductive Clause where
  | port (flag text : Str)
  | threads (flag text : Str)
  | aofEnabled (text : Str)
  | aofPath (path : Str)
  | help (flag : Str)
  | positional (port : Str) (threads : Option Str)
  | ignored (flag : Str)
  deriving DecidableEq, Repr

namespace Clause

def args : Clause → List Str
  | port flag text => [flag, text]
  | threads flag text => [flag, text]
  | aofEnabled text => ["--aof-enabled".toList, text]
  | aofPath path => ["--aof-path".toList, path]
  | help flag => [flag]
  | positional p t => p :: t.toList
  | ignored flag => [flag]

def Formed (rest : List Str) : Clause → Prop
  | port flag _ => flag = "-p".toList ∨ flag = "--port".toList
  | threads flag _ => flag = "-t".toList ∨ flag = "--threads".toList
  | aofEnabled _ => True
  | aofPath _ => True
  | help flag => flag = "-h".toList ∨ flag = "--help".toList
  | positional p (some t) => isFlag p = false ∧ isFlag t = false
  | positional p none => isFlag p = false ∧ ∀ next ∈ rest.head?, isFlag next = true
  | ignored flag => (isFlag flag = true ∧ flag ∉ knownFlags) ∨ (flag ∈ valueFlags ∧ rest = [])

inductive Reads : List Clause → List Str → Prop
  | nil : Reads [] []
  | cons {c cs rest} : Formed rest c → Reads cs rest → Reads (c :: cs) (c.args ++ rest)

def failure {α : Type} : Except String α → Option Launch
  | .error message => some (.error message)
  | .ok _ => none

def stops : Clause → Option Launch
  | port _ text => failure (portOf text)
  | threads _ text => failure (threadsOf text)
  | help _ => some .usage
  | positional p t => (failure (portOf p)).or (t.bind fun t => failure (threadsOf t))
  | _ => none

def apply (o : Options) : Clause → Options
  | port _ text => { o with port := (portOf text).toOption.getD o.port }
  | threads _ text => { o with numThreads := (threadsOf text).toOption.getD o.numThreads }
  | aofEnabled text => { o with aofEnabled := text = "true".toList ∨ text = "1".toList }
  | aofPath path => { o with aofPath := path }
  | positional p t =>
      { o with
        port := (portOf p).toOption.getD o.port
        numThreads := (t.bind fun t => (threadsOf t).toOption).getD o.numThreads }
  | _ => o

def outcome (cs : List Clause) (o : Options) : Launch :=
  (cs.findSome? stops).getD (.start (cs.foldl apply o))

end Clause

theorem known_isFlag {arg : Str} (h : arg ∈ knownFlags) : isFlag arg = true := by
  simp only [knownFlags, List.mem_cons, List.not_mem_nil, or_false] at h
  rcases h with rfl | rfl | rfl | rfl | rfl | rfl | rfl | rfl <;> decide

theorem unknown_ne {arg : Str} (h : arg ∉ knownFlags) :
    ¬(arg = "-p".toList ∨ arg = "--port".toList) ∧ ¬(arg = "-t".toList ∨ arg = "--threads".toList) ∧
      arg ≠ "--aof-enabled".toList ∧ arg ≠ "--aof-path".toList ∧
      ¬(arg = "-h".toList ∨ arg = "--help".toList) := by
  simp only [knownFlags, List.mem_cons, List.not_mem_nil, or_false, not_or] at h ⊢
  obtain ⟨hp,hport,ht,hthreads,he,ha,hh,hhelp⟩ := h
  exact ⟨⟨hp,hport⟩,⟨ht,hthreads⟩,he,ha,hh,hhelp⟩

theorem parseArgs_unknown {arg : Str} (h : arg ∉ knownFlags) (rest : List Str) (o : Options) :
    parseArgs (arg :: rest) o =
      if isFlag arg then parseArgs rest o
      else match portOf arg with
        | .error message => .error message
        | .ok port =>
            match rest with
            | [] => .start { o with port := port }
            | value :: rest =>
                if isFlag value then parseArgs (value :: rest) { o with port := port }
                else match threadsOf value with
                  | .error message => .error message
                  | .ok numThreads =>
                      parseArgs rest { o with port := port, numThreads := numThreads } := by
  obtain ⟨hp,ht,he,ha,hh⟩ := unknown_ne h
  rw [parseArgs.eq_def]
  simp only [if_neg hp, if_neg ht, if_neg he, if_neg ha, if_neg hh]

theorem positional_unknown {arg : Str} (h : isFlag arg = false) : arg ∉ knownFlags := by
  intro hm
  simpa [h] using known_isFlag hm

theorem parseArgs_clause {c : Clause} {rest : List Str} (hc : c.Formed rest) (o : Options) :
    parseArgs (c.args ++ rest) o = c.stops.getD (parseArgs rest (c.apply o)) := by
  cases c with
  | port flag text =>
    rcases hc with rfl | rfl <;> cases hp : portOf text <;>
      simp [Clause.args, Clause.stops, Clause.failure, Clause.apply, parseArgs, hp, Except.toOption]
  | threads flag text =>
    rcases hc with rfl | rfl <;> cases hp : threadsOf text <;>
      simp [Clause.args, Clause.stops, Clause.failure, Clause.apply, parseArgs, hp, Except.toOption]
  | aofEnabled text => simp [Clause.args, Clause.stops, Clause.apply, parseArgs]
  | aofPath path => simp [Clause.args, Clause.stops, Clause.apply, parseArgs]
  | help flag =>
    rw [parseArgs.eq_def]
    rcases hc with rfl | rfl <;> simp [Clause.args, Clause.stops]
  | positional p t =>
    have hp : isFlag p = false := by cases t <;> exact hc.1
    simp only [Clause.args, List.cons_append]
    rw [parseArgs_unknown (positional_unknown hp), hp, if_neg Bool.false_ne_true]
    cases hport : portOf p with
    | error message => rw [Clause.stops, hport]; rfl
    | ok port =>
      simp only [Clause.stops, Clause.failure]
      cases t with
      | some t =>
        have ht : isFlag t = false := hc.2
        cases hthreads : threadsOf t <;>
          simp [Clause.apply, Except.toOption, ht, hport, hthreads]
      | none =>
        cases rest with
        | nil => simp [Clause.apply, parseArgs, Except.toOption, hport]
        | cons next rest =>
          have hnext : isFlag next = true := hc.2 next rfl
          simp [Clause.apply, Except.toOption, hport, hnext]
  | ignored flag =>
    rcases hc with ⟨hflag,hunknown⟩ | ⟨hflag,rfl⟩
    · simp only [Clause.args, List.cons_append, List.nil_append]
      rw [parseArgs_unknown hunknown, hflag, if_pos rfl]
      rfl
    · simp only [valueFlags, List.mem_cons, List.not_mem_nil, or_false] at hflag
      rcases hflag with rfl | rfl | rfl | rfl | rfl | rfl <;>
        simp [Clause.args, Clause.stops, Clause.apply, parseArgs]

theorem Clause.Reads.outcome {cs : List Clause} {args : List Str} (h : Clause.Reads cs args)
    (o : Options) : parseArgs args o = Clause.outcome cs o := by
  induction h generalizing o with
  | nil => rfl
  | @cons c cs rest hc _ ih =>
    rw [parseArgs_clause hc, ih, Clause.outcome, Clause.outcome, List.findSome?_cons,
      List.foldl_cons]
    cases c.stops <;> rfl

theorem first_clause (arg : Str) (rest : List Str) :
    ∃ (c : Clause) (rest' : List Str), c.Formed rest' ∧ c.args ++ rest' = arg :: rest := by
  by_cases hflag : isFlag arg = true
  · by_cases hvalue : arg ∈ valueFlags
    · cases rest with
      | nil => exact ⟨.ignored arg,[],.inr ⟨hvalue,rfl⟩,rfl⟩
      | cons text rest =>
        simp only [valueFlags, List.mem_cons, List.not_mem_nil, or_false] at hvalue
        rcases hvalue with h | h | h | h | rfl | rfl
        · exact ⟨.port arg text,rest,.inl h,rfl⟩
        · exact ⟨.port arg text,rest,.inr h,rfl⟩
        · exact ⟨.threads arg text,rest,.inl h,rfl⟩
        · exact ⟨.threads arg text,rest,.inr h,rfl⟩
        · exact ⟨.aofEnabled text,rest,trivial,rfl⟩
        · exact ⟨.aofPath text,rest,trivial,rfl⟩
    · by_cases hhelp : arg = "-h".toList ∨ arg = "--help".toList
      · exact ⟨.help arg,rest,hhelp,rfl⟩
      · refine ⟨.ignored arg,rest,.inl ⟨hflag,?_⟩,rfl⟩
        simp only [knownFlags, valueFlags, List.mem_cons, List.not_mem_nil, or_false,
          not_or] at hvalue hhelp ⊢
        grind
  · rw [Bool.not_eq_true] at hflag
    cases rest with
    | nil => exact ⟨.positional arg none,[],⟨hflag,by simp⟩,rfl⟩
    | cons text rest =>
      cases htext : isFlag text with
      | true => exact ⟨.positional arg none,text :: rest,⟨hflag,by simp [htext]⟩,rfl⟩
      | false => exact ⟨.positional arg (some text),rest,⟨hflag,htext⟩,rfl⟩

theorem Clause.exists_reads (args : List Str) : ∃ cs, Clause.Reads cs args := by
  induction hn : args.length using Nat.strong_induction_on generalizing args with
  | _ n ih =>
    cases args with
    | nil => exact ⟨[],.nil⟩
    | cons arg rest =>
      obtain ⟨c,rest',hc,hargs⟩ := first_clause arg rest
      have hshort : rest'.length < n := by
        rw [← hn, ← hargs, List.length_append]
        cases c <;> simp [Clause.args]
      obtain ⟨cs,hcs⟩ := ih rest'.length hshort rest' rfl
      exact ⟨c :: cs,hargs ▸ .cons hc hcs⟩

theorem Launch.Sound.weaken {args args' : List Str} {launch : Launch} (h : launch.Sound args)
    (hs : args ⊆ args') : launch.Sound args' := by
  cases launch with
  | start o => exact h
  | usage => exact h.imp (fun hm => hs hm) (fun hm => hs hm)
  | error message =>
    obtain ⟨text,hm,ht⟩ := h
    exact ⟨text,hs hm,ht⟩

theorem Clause.failure_error {α : Type} {x : Except String α} {launch : Launch}
    (h : Clause.failure x = some launch) :
    ∃ message, launch = .error message ∧ x = .error message := by
  cases x with
  | error message => exact ⟨message,(Option.some.inj h).symm,rfl⟩
  | ok a => cases h

theorem Clause.stops_sound {c : Clause} {rest : List Str} {launch : Launch} (hc : c.Formed rest)
    (h : c.stops = some launch) : launch.Sound c.args := by
  cases c with
  | port flag text =>
    obtain ⟨message,rfl,hm⟩ := failure_error h
    exact ⟨text,by simp [args],.inl hm⟩
  | threads flag text =>
    obtain ⟨message,rfl,hm⟩ := failure_error h
    exact ⟨text,by simp [args],.inr hm⟩
  | help flag =>
    cases h
    exact hc.imp (fun h => by simp [args, h]) (fun h => by simp [args, h])
  | positional p t =>
    rcases Option.or_eq_some_iff.mp h with h | ⟨-,h⟩
    · obtain ⟨message,rfl,hm⟩ := failure_error h
      exact ⟨p,by simp [args],.inl hm⟩
    · obtain ⟨text,rfl,h⟩ := Option.bind_eq_some_iff.mp h
      obtain ⟨message,rfl,hm⟩ := failure_error h
      exact ⟨text,by simp [args],.inr hm⟩
  | aofEnabled text | aofPath path | ignored flag => cases h

theorem portOf_getD {text : Str} {port : Nat} (h : 1 ≤ port ∧ port ≤ 65535) :
    1 ≤ (portOf text).toOption.getD port ∧ (portOf text).toOption.getD port ≤ 65535 := by
  cases hp : portOf text with
  | error message => exact h
  | ok n => exact portOf_valid hp

theorem threadsOf_getD {text : Str} {n : Nat} (h : (n : Int) ≤ int32Max) :
    (((threadsOf text).toOption.getD n : Nat) : Int) ≤ int32Max := by
  cases ht : threadsOf text with
  | error message => exact h
  | ok n => exact (threadsOf_valid ht).2

theorem Clause.apply_valid {o : Options} (c : Clause) (h : o.Valid) : (c.apply o).Valid := by
  obtain ⟨hlo,hhi,ht⟩ := id h
  cases c with
  | port flag text => exact ⟨(portOf_getD ⟨hlo,hhi⟩).1,(portOf_getD ⟨hlo,hhi⟩).2,ht⟩
  | threads flag text => exact ⟨hlo,hhi,threadsOf_getD ht⟩
  | positional p t =>
    refine ⟨(portOf_getD ⟨hlo,hhi⟩).1,(portOf_getD ⟨hlo,hhi⟩).2,?_⟩
    cases t with
    | none => exact ht
    | some t => exact threadsOf_getD ht
  | aofEnabled text | aofPath path | help flag | ignored flag => exact h

theorem Clause.Reads.sound {cs : List Clause} {args : List Str} (h : Clause.Reads cs args)
    {o : Options} (ho : o.Valid) : (Clause.outcome cs o).Sound args := by
  induction h generalizing o with
  | nil => exact ho
  | @cons c cs rest hc _ ih =>
    rw [Clause.outcome, List.findSome?_cons]
    cases hs : c.stops with
    | some launch => exact (stops_sound hc hs).weaken (by simp)
    | none => exact (ih (c.apply_valid ho)).weaken (by simp)

theorem command_line_checked (args : List Str) :
    (∃ cs, Clause.Reads cs args) ∧
      (∀ cs, Clause.Reads cs args → parseArgs args .default = Clause.outcome cs .default) ∧
      (parseArgs args .default).Sound args := by
  obtain ⟨cs,hcs⟩ := Clause.exists_reads args
  refine ⟨⟨cs,hcs⟩,fun cs h => h.outcome .default,?_⟩
  rw [hcs.outcome]
  exact hcs.sound (by decide)

def secondCheckFails : List Str :=
  ["7000".toList, "--aof-path".toList, "-h".toList, "-t".toList, "0".toList, "--help".toList,
    "-p".toList, "x".toList]

theorem first_failure_decides :
    Clause.Reads [.positional "7000".toList none, .aofPath "-h".toList,
        .threads "-t".toList "0".toList, .help "--help".toList, .port "-p".toList "x".toList]
      secondCheckFails ∧
      parseArgs secondCheckFails .default =
        .error "Error: thread count must be greater than 0\n" := by
  have hreads : Clause.Reads [.positional "7000".toList none, .aofPath "-h".toList,
      .threads "-t".toList "0".toList, .help "--help".toList, .port "-p".toList "x".toList]
      secondCheckFails :=
    .cons ⟨by decide,by simp; decide⟩ (.cons trivial (.cons (.inl rfl)
      (.cons (.inr rfl) (.cons (.inl rfl) .nil))))
  exact ⟨hreads,((command_line_checked secondCheckFails).2.1 _ hreads).trans (by decide +kernel)⟩

inductive Setting where
  | port (long : Bool) (n : Nat)
  | threads (long : Bool) (n : Nat)
  | aofEnabled (b : Bool)
  | aofPath (path : Str)
  | positional (port threads : Nat)
  | ignored (flag : Str)

namespace Setting

def args : Setting → List Str
  | port long n => [if long then "--port".toList else "-p".toList, stdToString n]
  | threads long n => [if long then "--threads".toList else "-t".toList, stdToString n]
  | aofEnabled b => ["--aof-enabled".toList, if b then "true".toList else "false".toList]
  | aofPath path => ["--aof-path".toList, path]
  | positional p t => [stdToString p, stdToString t]
  | ignored flag => [flag]

def apply (o : Options) : Setting → Options
  | port _ n => { o with port := n }
  | threads _ n => { o with numThreads := n }
  | aofEnabled b => { o with aofEnabled := b }
  | aofPath path => { o with aofPath := path }
  | positional p t => { o with port := p, numThreads := t }
  | ignored _ => o

def Valid : Setting → Prop
  | port _ n => 1 ≤ n ∧ n ≤ 65535
  | threads _ n => 0 < n ∧ (n : Int) ≤ int32Max
  | positional p t => (1 ≤ p ∧ p ≤ 65535) ∧ 0 < t ∧ (t : Int) ≤ int32Max
  | ignored flag => isFlag flag = true ∧ flag ∉ knownFlags
  | _ => True

instance : DecidablePred Valid
  | port _ _ => inferInstanceAs (Decidable (_ ∧ _))
  | threads _ _ => inferInstanceAs (Decidable (_ ∧ _))
  | aofEnabled _ => isTrue trivial
  | aofPath _ => isTrue trivial
  | positional _ _ => inferInstanceAs (Decidable (_ ∧ _))
  | ignored _ => inferInstanceAs (Decidable (_ ∧ _))

def clause : Setting → Clause
  | port long n => .port (if long then "--port".toList else "-p".toList) (stdToString n)
  | threads long n => .threads (if long then "--threads".toList else "-t".toList) (stdToString n)
  | aofEnabled b => .aofEnabled (if b then "true".toList else "false".toList)
  | aofPath path => .aofPath path
  | positional p t => .positional (stdToString p) (some (stdToString t))
  | ignored flag => .ignored flag

end Setting

theorem stoi_stdToString {n : Nat} (h : (n : Int) ≤ int32Max) : stoi (stdToString n) = some n := by
  have hlo : int64Min ≤ (n : Int) := by
    simp only [int64Min]
    omega
  have hhi : (n : Int) ≤ int64Max := by
    simp only [int32Max, int64Max] at h ⊢
    omega
  rw [stoi, stoll_stdToString hlo hhi]
  have hmin : int32Min ≤ (n : Int) := by
    simp only [int32Min]
    omega
  exact if_pos ⟨hmin,h⟩

theorem portOf_stdToString {n : Nat} (hlo : 1 ≤ n) (hhi : n ≤ 65535) :
    portOf (stdToString n) = .ok n := by
  have hmax : (n : Int) ≤ int32Max := by
    simp only [int32Max]
    omega
  rw [portOf, stoi_stdToString hmax]
  exact if_neg (by omega)

theorem threadsOf_stdToString {n : Nat} (hlo : 0 < n) (hhi : (n : Int) ≤ int32Max) :
    threadsOf (stdToString n) = .ok n := by
  rw [threadsOf, stoi_stdToString hhi]
  exact if_neg (by omega)

theorem stdToString_not_flag (n : Nat) : isFlag (stdToString n) = false := by
  have hdigits : stdToString n = Nat.toDigits 10 n := by simp [stdToString]
  rw [isFlag, hdigits, decide_eq_false_iff_not]
  intro h
  have hd := toDigits_isDigit (List.mem_of_mem_head? h)
  exact absurd hd (by decide)

namespace Setting

theorem clause_args (x : Setting) : x.clause.args = x.args := by cases x <;> rfl

theorem clause_formed {x : Setting} (hx : x.Valid) (tail : List Str) : x.clause.Formed tail := by
  cases x with
  | port long n | threads long n => cases long <;> simp [clause, Clause.Formed]
  | aofEnabled b | aofPath path => trivial
  | positional p t => exact ⟨stdToString_not_flag p,stdToString_not_flag t⟩
  | ignored flag => exact .inl hx

theorem clause_stops {x : Setting} (hx : x.Valid) : x.clause.stops = none := by
  cases x with
  | port long n => rw [clause, Clause.stops, portOf_stdToString hx.1 hx.2]; rfl
  | threads long n => rw [clause, Clause.stops, threadsOf_stdToString hx.1 hx.2]; rfl
  | positional p t =>
    rw [clause, Clause.stops, portOf_stdToString hx.1.1 hx.1.2, Option.bind_some,
      threadsOf_stdToString hx.2.1 hx.2.2]
    rfl
  | aofEnabled b | aofPath path | ignored flag => rfl

theorem clause_apply {x : Setting} (hx : x.Valid) (o : Options) :
    x.clause.apply o = x.apply o := by
  cases x with
  | port long n => rw [clause, Clause.apply, portOf_stdToString hx.1 hx.2]; rfl
  | threads long n => rw [clause, Clause.apply, threadsOf_stdToString hx.1 hx.2]; rfl
  | positional p t =>
    rw [clause, Clause.apply, portOf_stdToString hx.1.1 hx.1.2, Option.bind_some,
      threadsOf_stdToString hx.2.1 hx.2.2]
    rfl
  | aofEnabled b => cases b <;> simp [clause, Clause.apply, apply]
  | aofPath path | ignored flag => rfl

end Setting

theorem parseArgs_setting {x : Setting} (hx : x.Valid) (tail : List Str) (o : Options) :
    parseArgs (x.args ++ tail) o = parseArgs tail (x.apply o) := by
  rw [← x.clause_args, parseArgs_clause (Setting.clause_formed hx tail), Setting.clause_stops hx,
    Setting.clause_apply hx]
  rfl

theorem parseArgs_settings {settings : List Setting} (hv : ∀ x ∈ settings, x.Valid)
    (tail : List Str) (o : Options) :
    parseArgs (settings.flatMap Setting.args ++ tail) o =
      parseArgs tail (settings.foldl Setting.apply o) := by
  induction settings generalizing o with
  | nil => rfl
  | cons x settings ih =>
    rw [List.flatMap_cons, List.append_assoc, parseArgs_setting (hv x (by simp)), List.foldl_cons]
    exact ih (fun y hy => hv y (by simp [hy])) _

theorem settings_read_in_order (settings : List Setting) (hv : ∀ x ∈ settings, x.Valid)
    (o : Options) :
    parseArgs (settings.flatMap Setting.args) o = .start (settings.foldl Setting.apply o) ∧
      ∀ tail, parseArgs (settings.flatMap Setting.args ++ tail) o =
        parseArgs tail (settings.foldl Setting.apply o) := by
  refine ⟨?_,fun tail => parseArgs_settings hv tail o⟩
  have halone := parseArgs_settings hv [] o
  rwa [List.append_nil] at halone

def portGivenTwice : List Setting :=
  [.positional 7000 4, .ignored "--verbose".toList, .aofEnabled false, .aofPath "-h".toList,
    .port false 7001]

theorem later_port_wins :
    (∀ x ∈ portGivenTwice, x.Valid) ∧
      parseArgs (portGivenTwice.flatMap Setting.args) .default =
        .start (portGivenTwice.foldl Setting.apply .default) ∧
      parseArgs (portGivenTwice.flatMap Setting.args ++ ["-t".toList]) .default =
        parseArgs ["-t".toList] (portGivenTwice.foldl Setting.apply .default) ∧
      parseArgs (portGivenTwice.flatMap Setting.args ++ ["-t".toList]) .default =
        .start ⟨7001, 4, false, "-h".toList⟩ :=
  ⟨by decide +kernel,(settings_read_in_order portGivenTwice (by decide +kernel) _).1,
    (settings_read_in_order portGivenTwice (by decide +kernel) _).2 _,by decide +kernel⟩

end CacheForge
