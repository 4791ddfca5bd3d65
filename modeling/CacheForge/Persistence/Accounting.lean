import CacheForge.Persistence.OneLine

namespace CacheForge

namespace ReplayStats

def lines (s : ReplayStats) : Nat := s.commandsReplayed + s.linesSkipped + s.errors

end ReplayStats

section

variable (hash : Str → Nat)

def replayedLines : List (Readings × Str) → Replayed → List (Readings × Str)
  | [], _ => []
  | l :: ls, p =>
      let q := replayLine hash l.1 l.2 p
      if q.stats.linesSkipped = p.stats.linesSkipped ∧ q.stats.errors = p.stats.errors then
        l :: replayedLines ls q
      else replayedLines ls q

theorem replayLine_counted (r : Readings) (line : Str) (p : Replayed) :
    (replayLine hash r line p).stats.lines = p.stats.lines + 1 := by
  rcases replayLine_reads hash r line p with ⟨rec,-,h⟩ | ⟨-,h | h⟩ <;> rw [h] <;>
    simp only [ReplayStats.lines, Replayed.applied, Replayed.skipped, Replayed.failed] <;> omega

theorem replayLines_counted (ls : List (Readings × Str)) (p : Replayed) :
    (replayLines hash ls p).stats.lines = p.stats.lines + ls.length := by
  induction ls generalizing p with
  | nil => rfl
  | cons l ls ih =>
    have h := ih (replayLine hash l.1 l.2 p)
    rw [replayLine_counted] at h
    rw [List.length_cons]
    exact h.trans (by omega)

theorem replayedLines_sublist (ls : List (Readings × Str)) (p : Replayed) :
    (replayedLines hash ls p).Sublist ls := by
  induction ls generalizing p with
  | nil => exact List.Sublist.refl _
  | cons l ls ih =>
    simp only [replayedLines]
    split
    · exact (ih _).cons_cons l
    · exact (ih _).cons l

theorem replayLines_cons (l : Readings × Str) (ls : List (Readings × Str)) (p : Replayed) :
    replayLines hash (l :: ls) p = replayLines hash ls (replayLine hash l.1 l.2 p) := rfl

theorem replayLine_read {line : Str} {rec : Record} (hrec : readLine line = some rec)
    (r : Readings) (p : Replayed) :
    replayLine hash r line p = p.applied (rec.apply hash r p.storage) := by
  rcases replayLine_reads hash r line p with ⟨rec',hrec',h⟩ | ⟨hnone,-⟩
  · obtain rfl : rec' = rec := Option.some.inj (hrec'.symm.trans hrec)
    exact h
  · simp [hnone] at hrec

theorem replayLine_unread {line : Str} (hrec : readLine line = none) (r : Readings)
    (p : Replayed) : ∃ skipped errors,
      replayLine hash r line p = ⟨p.storage, ⟨p.stats.commandsReplayed, skipped, errors⟩⟩ ∧
        ¬(skipped = p.stats.linesSkipped ∧ errors = p.stats.errors) := by
  rcases replayLine_reads hash r line p with ⟨rec,hsome,-⟩ | ⟨-,h | h⟩
  · simp [hrec] at hsome
  · exact ⟨_,_,h,by simp⟩
  · exact ⟨_,_,h,by simp⟩

theorem replayLines_isolates (ls : List (Readings × Str)) (p : Replayed) (skipped errors : Nat) :
    replayLines hash (replayedLines hash ls p)
        ⟨p.storage, ⟨p.stats.commandsReplayed, skipped, errors⟩⟩ =
      ⟨(replayLines hash ls p).storage,
        ⟨(replayLines hash ls p).stats.commandsReplayed, skipped, errors⟩⟩ := by
  induction ls generalizing p with
  | nil => rfl
  | cons l ls ih =>
    rw [replayLines_cons, ← ih]
    cases hrec : readLine l.2 with
    | none =>
      obtain ⟨s,e,h,hne⟩ := replayLine_unread hash hrec l.1 p
      simp only [replayedLines, h, hne, if_false]
    | some rec =>
      have h := replayLine_read hash hrec l.1
      simp only [replayedLines, h p, Replayed.applied, and_self, if_true, replayLines_cons]
      rw [h]
      rfl

end

theorem timed_exists (kept : List (Readings × Str)) :
    ∃ clock, timed clock (kept.map Prod.snd) = kept := by
  refine ⟨fun i => (kept[i]?.map Prod.fst).getD ⟨0, 0⟩,List.ext_getElem? fun i => ?_⟩
  rw [timed, List.getElem?_mapIdx, List.getElem?_map]
  cases kept[i]? <;> rfl

theorem replay_accounts_for_every_line (hash : Str → Nat) (clock : Nat → Readings) (file : Str)
    (st : ShardedStorage) :
    let done := replay hash clock (some file) st
    let kept := replayedLines hash (timed clock (getlines file)) ⟨st, .zero⟩
    done.stats.commandsReplayed + done.stats.linesSkipped + done.stats.errors =
      (getlines file).length ∧
    (∃ clock', timed clock' (getlines (aofFile (kept.map Prod.snd))) = kept) ∧
    ∀ clock' file', timed clock' (getlines file') = kept →
      (replay hash clock' (some file') st).storage = done.storage ∧
      (replay hash clock' (some file') st).stats = ⟨done.stats.commandsReplayed, 0, 0⟩ := by
  intro done kept
  refine ⟨?_,?_,fun clock' file' hkept => ?_⟩
  · have h := replayLines_counted hash (timed clock (getlines file)) ⟨st, .zero⟩
    have hlen : (timed clock (getlines file)).length = (getlines file).length := by simp [timed]
    rw [hlen] at h
    exact h.trans (Nat.zero_add _)
  · have hclean : ∀ l ∈ kept.map Prod.snd, '\n' ∉ l := by
      intro l hl
      have hsub : (kept.map Prod.snd).Sublist ((timed clock (getlines file)).map Prod.snd) :=
        (replayedLines_sublist hash _ _).map Prod.snd
      rw [timed_lines] at hsub
      exact getlines_clean (hsub.subset hl)
    obtain ⟨clock',h⟩ := timed_exists kept
    exact ⟨clock',by rw [getlines_aofFile hclean, h]⟩
  · have h := replayLines_isolates hash (timed clock (getlines file)) ⟨st, .zero⟩ 0 0
    have hrun : replay hash clock' (some file') st =
        ⟨done.storage, ⟨done.stats.commandsReplayed, 0, 0⟩⟩ := by
      rw [replay, hkept]
      exact h
    rw [hrun]
    exact ⟨rfl,rfl⟩

end CacheForge
