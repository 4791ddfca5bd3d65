import CacheForge.Protocol.Text

namespace CacheForge

inductive CommandType where
  | ping | set | get | del | expire | ttl | stats | unknown
  deriving DecidableEq, Repr

structure Command where
  type : CommandType
  args : List Str
  deriving DecidableEq, Repr

def quotedToken : Str → Str × Str
  | [] => ([], [])
  | ['\\'] => (['\\'], [])
  | '\\' :: c :: cs => (c :: (quotedToken cs).1, (quotedToken cs).2)
  | c :: cs =>
      if c = '"' then ([], cs)
      else (c :: (quotedToken cs).1, (quotedToken cs).2)

def bareToken (s : Str) : Str × Str :=
  (s.takeWhile (fun c => !isspace c), s.dropWhile (fun c => !isspace c))

def nextToken : Str → Str × Str
  | '"' :: cs => quotedToken cs
  | s => bareToken s

def pushToken (token : Str) (tokens : List Str) : List Str :=
  if token = [] then tokens else token :: tokens

theorem quotedToken_length (s : Str) : (quotedToken s).2.length ≤ s.length := by
  fun_induction quotedToken s with
  | case1 => simp
  | case2 => simp
  | case3 c cs ih => simp only [List.length_cons]; omega
  | case4 cs => simp
  | case5 c cs _ _ _ ih => simp only [List.length_cons]; omega

theorem bareToken_length (s : Str) : (bareToken s).2.length ≤ s.length :=
  (List.dropWhile_suffix _).length_le

theorem dropWhile_head {p : Char → Bool} {s : Str} {c : Char} {cs : Str}
    (h : s.dropWhile p = c :: cs) : p c = false := by
  have hne : s.dropWhile p ≠ [] := by simp [h]
  have hp := List.head_dropWhile_not p hne
  simpa [h] using hp

theorem nextToken_length {c : Char} {cs : Str} (hc : isspace c = false) :
    (nextToken (c :: cs)).2.length < (c :: cs).length := by
  unfold nextToken
  split
  · rename_i ds heq
    cases heq
    exact Nat.lt_succ_of_le (quotedToken_length _)
  · have hb := bareToken_length cs
    simpa [bareToken, List.dropWhile_cons, hc, Nat.lt_succ_iff] using hb

def tokenize (input : Str) : List Str :=
  match _h : input.dropWhile isspace with
  | [] => []
  | c :: cs => pushToken (nextToken (c :: cs)).1 (tokenize (nextToken (c :: cs)).2)
termination_by input.length
decreasing_by
  have hs : (input.dropWhile isspace).length ≤ input.length := (List.dropWhile_suffix _).length_le
  rw [_h] at hs
  exact lt_of_lt_of_le (nextToken_length (dropWhile_head _h)) hs

def trimCommand (input : Str) : Str := (input.dropWhile isspace).rdropWhile isspace

def takeArgs (n : Nat) (tokens : List Str) : List Str :=
  if tokens.length ≥ n + 1 then (tokens.drop 1).take n else []

def commandOf (tokens : List Str) : Command :=
  match tokens with
  | [] => ⟨.unknown, []⟩
  | name :: _ =>
      let cmdName := toUpper name
      if cmdName = ['P', 'I', 'N', 'G'] then ⟨.ping, []⟩
      else if cmdName = ['S', 'E', 'T'] then ⟨.set, takeArgs 2 tokens⟩
      else if cmdName = ['G', 'E', 'T'] then ⟨.get, takeArgs 1 tokens⟩
      else if cmdName = ['D', 'E', 'L'] then ⟨.del, takeArgs 1 tokens⟩
      else if cmdName = ['E', 'X', 'P', 'I', 'R', 'E'] then ⟨.expire, takeArgs 2 tokens⟩
      else if cmdName = ['T', 'T', 'L'] then ⟨.ttl, takeArgs 1 tokens⟩
      else if cmdName = ['S', 'T', 'A', 'T', 'S'] then ⟨.stats, []⟩
      else ⟨.unknown, []⟩

def parseCommand (input : Str) : Command :=
  let trimmed := trimCommand input
  if trimmed = [] then ⟨.unknown, []⟩ else commandOf (tokenize trimmed)

end CacheForge
