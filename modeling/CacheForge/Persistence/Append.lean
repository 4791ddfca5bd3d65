import CacheForge.Persistence.Quoting
import CacheForge.Persistence.Torn
import CacheForge.Storage.WriterLoop

namespace CacheForge

namespace Record

def Written (rec : Record) : Prop := (∀ t ∈ rec.tokens, t ≠ [] ∧ '\n' ∉ t) ∧ rec.Accepted

def name : Record → Str
  | set _ _ => ['S', 'E', 'T']
  | del _ => ['D', 'E', 'L']
  | expire _ _ => ['E', 'X', 'P', 'I', 'R', 'E']

def Legible (rec : Record) : Prop := (∀ t ∈ rec.tokens, Safe t) ∧ rec.Positive

end Record

def readLine (line : Str) : Option Record := (parseCommand line).record

def applied (file : Str) : List Record := (getlines file).filterMap readLine

def wholeLines (file : Str) : List Str := (Lines.split '\n' file).1

def unfinished (file : Str) : Str := (Lines.split '\n' file).2

def Ended (file : Str) : Prop := ∀ c ∈ file.getLast?, c = '\n'

def appended (file : Str) (recs : List Record) : Str := file ++ aofFile (recs.map Record.line)

def Kept (file : Str) (recs : List Record) : Prop :=
  ∃ before, (wholeLines file).filterMap readLine <+: before ∧
    applied (appended file recs) = before ++ recs

def Intact (file : Str) : List Record → Prop
  | [] => True
  | rec :: recs => readLine (unfinished file ++ rec.line) = some rec ∧ ∀ r ∈ recs, r.Legible

section

variable (hash : Str → Nat)

def changes (clock : Nat → Readings) (file : Str) : List (Readings × Record) :=
  (timed clock (getlines file)).filterMap (fun l => (readLine l.2).map (Prod.mk l.1))

theorem timed_lines (clock : Nat → Readings) (ls : List Str) :
    (timed clock ls).map Prod.snd = ls := by
  simp [timed, List.mapIdx_eq_zipIdx_map, List.map_map, Function.comp_def]

theorem changes_records (clock : Nat → Readings) (file : Str) :
    (changes clock file).map Prod.snd = applied file := by
  have hsnd := timed_lines clock (getlines file)
  rw [changes, applied, List.map_filterMap, ← hsnd, List.filterMap_map, hsnd]
  refine List.filterMap_congr fun l _ => ?_
  cases h : readLine l.2 <;> simp [h]

theorem replayLine_reads (r : Readings) (line : Str) (p : Replayed) :
    (∃ rec, readLine line = some rec ∧
        replayLine hash r line p = p.applied (rec.apply hash r p.storage)) ∨
      readLine line = none ∧
        (replayLine hash r line p = p.skipped ∨ replayLine hash r line p = p.failed) := by
  unfold replayLine
  split
  · rename_i hl
    rw [hl]
    exact Or.inr ⟨rfl,Or.inl rfl⟩
  · exact replayCommand_reads hash r (parseCommand line) p

theorem replayLines_changes (ls : List (Readings × Str)) (p : Replayed) :
    (replayLines hash ls p).storage =
      (ls.filterMap (fun l => (readLine l.2).map (Prod.mk l.1))).foldl
        (fun st l => l.2.apply hash l.1 st) p.storage := by
  induction ls generalizing p with
  | nil => rfl
  | cons l ls ih =>
    refine (ih (replayLine hash l.1 l.2 p)).trans ?_
    rcases replayLine_reads hash l.1 l.2 p with ⟨rec,hrec,h⟩ | ⟨hrec,h | h⟩ <;>
      simp [hrec, h, Replayed.applied, Replayed.skipped, Replayed.failed]

theorem replay_changes (clock : Nat → Readings) (file : Str) (st : ShardedStorage) :
    (replay hash clock (some file) st).storage =
      (changes clock file).foldl (fun st l => l.2.apply hash l.1 st) st :=
  replayLines_changes hash _ _

end

theorem session_appends {file : Str} {es : List WriterEvent} {s : Writer} {os : List WriterOut}
    {recs : List Record} (h : aofWriter.Run StaysGood (.start file) es s os)
    (hw : wrote os = recs.map Record.line) : s.file ++ s.buffer = appended file recs := by
  rw [(Writer.run_sound h).bytes, hw]
  rfl

theorem effect_written {hash : Str → Nat} {r : Readings} {st : ShardedStorage} {text : Str}
    {rec : Record} (ht : '\n' ∉ text) (h : (effect hash r (parseCommand text) st).2 = some rec) :
    rec.Written := by
  have he := effect_logs h
  refine ⟨fun t hm => ?_,he.accepted⟩
  obtain ⟨hne,hsub⟩ := parseCommand_args (he.tokens t hm).2
  exact ⟨hne,fun hc => ht (hsub _ hc)⟩

theorem record_set_iff {cmd : Command} {k v : Str} (hlen : cmd.args.length ≤ cmd.type.arity) :
    cmd.record = some (.set k v) ↔ cmd = ⟨.set, [k, v]⟩ := by
  constructor
  · intro h
    have ht := (record_spec h).2.2
    obtain ⟨type,args⟩ := cmd
    obtain rfl : type = .set := ht
    rcases args with _ | ⟨a,_ | ⟨b,_ | ⟨c,rest⟩⟩⟩
    · cases h
    · cases h
    · cases h
      rfl
    · simp [CommandType.arity] at hlen
  · rintro rfl
    rfl

theorem record_del_iff {cmd : Command} {k : Str} (hlen : cmd.args.length ≤ cmd.type.arity) :
    cmd.record = some (.del k) ↔ cmd = ⟨.del, [k]⟩ := by
  constructor
  · intro h
    have ht := (record_spec h).2.2
    obtain ⟨type,args⟩ := cmd
    obtain rfl : type = .del := ht
    rcases args with _ | ⟨a,_ | ⟨b,rest⟩⟩
    · cases h
    · cases h
      rfl
    · simp [CommandType.arity] at hlen
  · rintro rfl
    rfl

theorem record_expire {cmd : Command} {k : Str} {n : Int}
    (hlen : cmd.args.length ≤ cmd.type.arity) (h : cmd.record = some (.expire k n)) :
    ∃ a, cmd = ⟨.expire, [k, a]⟩ := by
  have ht := (record_spec h).2.2
  obtain ⟨type,args⟩ := cmd
  obtain rfl : type = .expire := ht
  rcases args with _ | ⟨x,_ | ⟨a,_ | ⟨c,rest⟩⟩⟩
  · cases h
  · cases h
  · refine ⟨a,?_⟩
    simp only [Command.record] at h
    split at h
    · split at h
      · cases h
      · cases h
        rfl
    · cases h
  · simp [CommandType.arity] at hlen

theorem reads_set {k v : Str} (hk : k ≠ []) (hv : v ≠ []) :
    readLine (Record.set k v).line = some (.set k v) ↔ Safe k ∧ Safe v :=
  (record_set_iff (parseCommand_arity _)).trans (parse_set_iff hk hv)

theorem reads_del {k : Str} (hk : k ≠ []) :
    readLine (Record.del k).line = some (.del k) ↔ Safe k :=
  (record_del_iff (parseCommand_arity _)).trans (parse_del_iff hk)

theorem reads_expire {k : Str} {n : Int} (hk : k ≠ []) (hn : (Record.expire k n).InRange) :
    readLine (Record.expire k n).line = some (.expire k n) ↔ Safe k ∧ 0 < n := by
  constructor
  · intro h
    refine ⟨?_,(record_spec h).1⟩
    obtain ⟨a,ha⟩ := record_expire (parseCommand_arity _) h
    rw [parse_expire_line, Command.mk.injEq, takeArgs_two] at ha
    obtain ⟨-,us,hus⟩ := ha
    exact trimmed_first hk (boundary_space _) (.inl (by simpa using stdToString_no_quote n)) hus
  · rintro ⟨hs,hpos⟩
    rw [readLine, (parse_expire_iff n hk).mpr hs]
    simp [Command.record, stoll_stdToString hn.1 hn.2, not_le.mpr hpos]

theorem reads_iff {rec : Record} (h : rec.Written) :
    readLine rec.line = some rec ↔ rec.Legible := by
  obtain ⟨ht,ha⟩ := h
  cases rec with
  | set k v =>
    rw [reads_set (ht k (by simp [Record.tokens])).1 (ht v (by simp [Record.tokens])).1]
    simp [Record.Legible, Record.tokens, Record.Positive]
  | del k =>
    rw [reads_del (ht k (by simp [Record.tokens])).1]
    simp [Record.Legible, Record.tokens, Record.Positive]
  | expire k n =>
    rw [reads_expire (ht k (by simp [Record.tokens])).1 ha.inRange]
    simp [Record.Legible, Record.tokens, Record.Positive]

theorem Record.Written.clean {rec : Record} (h : rec.Written) : '\n' ∉ rec.line :=
  Record.line_clean fun t ht => (h.1 t ht).2

theorem getlines_appended {file : Str} {rec : Record} {recs : List Record}
    (h : ∀ r ∈ rec :: recs, r.Written) : getlines (appended file (rec :: recs)) =
      wholeLines file ++ (unfinished file ++ rec.line) :: recs.map Record.line := by
  obtain ⟨hjoin,hlines,hrest⟩ := Lines.split_spec '\n' file
  have hfile : appended file (rec :: recs) = aofFile (wholeLines file ++
      (unfinished file ++ rec.line) :: recs.map Record.line) := by
    conv_lhs => rw [appended, ← hjoin]
    simp [aofFile, wholeLines, unfinished, Lines.join]
  rw [hfile, getlines_aofFile]
  intro l hl
  simp only [List.mem_append, List.mem_cons, List.mem_map] at hl
  rcases hl with hl | rfl | ⟨r,hr,rfl⟩
  · exact hlines l hl
  · rw [List.mem_append, not_or]
    exact ⟨hrest,(h rec (by simp)).clean⟩
  · exact (h r (by simp [hr])).clean

theorem filterMap_self {α : Type} {f : α → Option α} {xs : List α} :
    xs.filterMap f = xs ↔ ∀ x ∈ xs, f x = some x := by
  induction xs with
  | nil => simp
  | cons x xs ih =>
    cases hf : f x with
    | none =>
      have hlen := List.length_filterMap_le f xs
      constructor
      · intro h
        rw [List.filterMap_cons_none hf] at h
        rw [h] at hlen
        simp at hlen
      · intro h
        simp [hf] at h
    | some y => simp [hf, ih]

theorem kept_nil (file : Str) : Kept file [] := by
  refine ⟨applied file,?_,by simp [appended, aofFile]⟩
  rw [applied, getlines_split, List.filterMap_append]
  exact List.prefix_append _ _

theorem kept_cons {file : Str} {rec : Record} {recs : List Record}
    (h : ∀ r ∈ rec :: recs, r.Written) : Kept file (rec :: recs) ↔ Intact file (rec :: recs) := by
  have hlater : (∀ r ∈ recs, r.Legible) ↔
      (recs.map Record.line).filterMap readLine = recs := by
    rw [List.filterMap_map, filterMap_self]
    exact forall₂_congr fun r hr => (reads_iff (h r (by simp [hr]))).symm
  rw [Kept, Intact, applied, getlines_appended h, hlater, List.filterMap_append]
  constructor
  · rintro ⟨before,⟨more,rfl⟩,heq⟩
    rw [List.append_assoc, List.append_cancel_left_eq] at heq
    have hlen := List.length_filterMap_le readLine (recs.map Record.line)
    rw [List.length_map] at hlen
    cases hr : readLine (unfinished file ++ rec.line) with
    | none =>
      rw [List.filterMap_cons_none hr] at heq
      have hl := congrArg List.length heq
      simp only [List.length_append, List.length_cons] at hl
      omega
    | some r =>
      rw [List.filterMap_cons_some hr] at heq
      cases more with
      | nil =>
        obtain ⟨rfl,hrest⟩ := List.cons.inj heq
        exact ⟨rfl,hrest⟩
      | cons m more =>
        have hl := congrArg List.length heq
        simp only [List.length_append, List.length_cons] at hl
        omega
  · rintro ⟨hr,hrest⟩
    refine ⟨_,List.prefix_rfl,?_⟩
    rw [List.filterMap_cons_some hr, hrest]

theorem unfinished_nil {file : Str} : unfinished file = [] ↔ Ended file := by
  obtain ⟨hjoin,-,hrest⟩ := Lines.split_spec '\n' file
  have h := Lines.join_ends '\n' (wholeLines file) hrest
  rwa [wholeLines, hjoin] at h

theorem commandOf_type {name : Str} {ts : List Str} {rec : Record}
    (h : (commandOf (name :: ts)).type = rec.type) : toUpper name = rec.name := by
  unfold commandOf at h
  simp only at h
  split_ifs at h <;> cases rec <;> first
    | assumption
    | cases h

theorem readLine_head {c : Char} {cs : Str} {rec : Record} (hc : isspace c = false) (hq : c ≠ '"')
    (h : readLine (c :: cs) = some rec) : rec.line.head? = some c.toUpper := by
  have hsolid := rdropWhile_solid cs (s := [c]) (p := isspace) (by simpa using hc) (by simp)
  have htrim : trimCommand (c :: cs) = c :: cs.rdropWhile isspace := by
    rw [trimCommand, List.dropWhile_cons_of_neg (by simp [hc])]
    exact hsolid
  have htok : tokenize (c :: cs.rdropWhile isspace) =
      (c :: (cs.rdropWhile isspace).takeWhile (fun c => !isspace c)) ::
        tokenize ((cs.rdropWhile isspace).dropWhile (fun c => !isspace c)) := by
    rw [tokenize_next (List.dropWhile_cons_of_neg (by simp [hc])), nextToken_bare hq]
    simp [bareToken, hc, pushToken]
  simp only [readLine, parseCommand, htrim, htok, List.cons_ne_nil, if_false] at h
  have hname := commandOf_type (record_spec h).2.2
  have hline : rec.line.head? = rec.name.head? := by cases rec <;> rfl
  rw [hline, ← hname]
  rfl

theorem torn_line_lost {l : Record} {t : Str} (ht : t <+: l.line) (hne : t ≠ []) :
    ∃ rec : Record, rec.Written ∧ rec.Legible ∧ readLine (t ++ rec.line) ≠ some rec := by
  obtain ⟨c,cs,rfl⟩ := List.exists_cons_of_ne_nil hne
  have hhead : l.line.head? = some c := by
    obtain ⟨u,hu⟩ := ht
    rw [← hu]
    rfl
  have hc : c = 'S' ∨ c = 'D' ∨ c = 'E' := by
    cases l <;> simp [Record.line] at hhead <;> simp [← hhead]
  have hlost {rec : Record} (hr : rec.line.head? ≠ some c) :
      readLine (c :: cs ++ rec.line) ≠ some rec := by
    intro h
    have hup : isspace c = false ∧ c ≠ '"' ∧ c.toUpper = c := by
      rcases hc with rfl | rfl | rfl <;> decide
    exact hr ((readLine_head hup.1 hup.2.1 h).trans (congrArg some hup.2.2))
  have hsafe : Safe ['k'] := by decide
  by_cases hs : c = 'S'
  · refine ⟨.del ['k'],⟨?_,trivial⟩,⟨?_,trivial⟩,hlost ?_⟩
    · simp [Record.tokens]
    · simp [Record.tokens, hsafe]
    · simp [Record.line, hs]
  · refine ⟨.set ['k'] ['k'],⟨?_,trivial⟩,⟨?_,trivial⟩,hlost ?_⟩
    · simp [Record.tokens]
    · simp [Record.tokens, hsafe]
    · simpa [Record.line] using Ne.symm hs

theorem kept_iff {file : Str} {recs : List Record} (h : ∀ rec ∈ recs, rec.Written) :
    Kept file recs ↔ Intact file recs := by
  cases recs with
  | nil => exact iff_of_true (kept_nil file) trivial
  | cons rec recs => exact kept_cons h

theorem intact_ended {file : Str} {recs : List Record} (h : ∀ rec ∈ recs, rec.Written)
    (hf : Ended file) : Intact file recs ↔ ∀ rec ∈ recs, rec.Legible := by
  cases recs with
  | nil => simp [Intact]
  | cons rec recs =>
    rw [Intact, unfinished_nil.mpr hf, List.nil_append, reads_iff (h rec (by simp)),
      List.forall_mem_cons]

theorem unfinished_torn {old : List Record} {file : Str} (ho : ∀ rec ∈ old, rec.Written)
    (hf : file <+: aofFile (old.map Record.line)) (hne : unfinished file ≠ []) :
    ∃ l : Record, unfinished file <+: l.line := by
  have hsplit (recs : List Record) {t : Str} (hr : ∀ rec ∈ recs, rec.Written) (ht : '\n' ∉ t) :
      unfinished (aofFile (recs.map Record.line) ++ t) = t := by
    rw [unfinished, aofFile, Lines.split_join '\n' _ t _ ht]
    intro line hm
    obtain ⟨rec,hrec,rfl⟩ := List.mem_map.mp hm
    exact (hr rec hrec).clean
  rcases torn_file hf with ⟨m,-,rfl⟩ | ⟨before,l,after,t,rfl,rfl,ht⟩
  · have hnil := hsplit (old.take m) (fun rec hm => ho rec (List.mem_of_mem_take hm))
      (List.not_mem_nil (a := '\n'))
    rw [List.append_nil] at hnil
    exact absurd hnil hne
  · have hclean : '\n' ∉ t := fun hc => (ho l (by simp)).clean (ht.subset hc)
    rw [hsplit before (fun rec hm => ho rec (by simp [hm])) hclean]
    exact ⟨l,ht⟩

theorem next_session_replayed (file : Str) (recs : List Record) (h : ∀ rec ∈ recs, rec.Written) :
    (Kept file recs ↔ Intact file recs) ∧
      (Ended file → (Kept file recs ↔ ∀ rec ∈ recs, rec.Legible)) ∧
      ∀ old : List Record, (∀ rec ∈ old, rec.Written) → file <+: aofFile (old.map Record.line) →
        ((∀ next : List Record, (∀ rec ∈ next, rec.Written ∧ rec.Legible) → Kept file next) ↔
          Ended file) := by
  refine ⟨kept_iff h,fun hf => (kept_iff h).trans (intact_ended h hf),
    fun old ho hf => ⟨fun hall => ?_,fun he next hn => ?_⟩⟩
  · rw [← unfinished_nil]
    by_contra hne
    obtain ⟨l,hl⟩ := unfinished_torn ho hf hne
    obtain ⟨rec,hw,hg,hlost⟩ := torn_line_lost hl hne
    have hkept := hall [rec] (by simp [hw, hg])
    exact hlost ((kept_iff (by simp [hw])).mp hkept).1
  · refine (kept_iff fun rec hm => (hn rec hm).1).mpr ?_
    exact (intact_ended (fun rec hm => (hn rec hm).1) he).mpr fun rec hm => (hn rec hm).2

theorem whole_file_session_replayed :
    Ended "SET k value\n".toList ∧
      Kept "SET k value\n".toList [.set ['a'] "b c".toList, .expire ['a'] 5] := by
  have hended : Ended "SET k value\n".toList := by
    intro c hc
    simpa [eq_comm] using hc
  refine ⟨hended,((next_session_replayed _ _ ?_).2.1 hended).mpr ?_⟩
  · intro rec hm
    simp only [List.mem_cons, List.not_mem_nil, or_false] at hm
    rcases hm with rfl | rfl
    · exact ⟨by simp [Record.tokens],trivial⟩
    · exact ⟨by simp [Record.tokens],by decide,by decide⟩
  · intro rec hm
    simp only [List.mem_cons, List.not_mem_nil, or_false] at hm
    rcases hm with rfl | rfl
    · exact ⟨by decide,trivial⟩
    · exact ⟨by decide,show (0 : Int) < 5 by decide⟩

theorem torn_file_fuses_session :
    "SET k va".toList <+: aofFile [(Record.set ['k'] "value".toList).line] ∧
    applied (appended "SET k va".toList [.set ['a'] ['b']]) = [.set ['k'] "vaSET".toList] ∧
    ¬Kept "SET k va".toList [.set ['a'] ['b']] := by
  have happ : applied (appended "SET k va".toList [.set ['a'] ['b']]) =
      [.set ['k'] "vaSET".toList] := by decide +kernel
  refine ⟨by decide +kernel,happ,?_⟩
  rintro ⟨before,-,h⟩
  rw [happ] at h
  have hlast := congrArg List.getLast? h
  simp at hlast

end CacheForge
