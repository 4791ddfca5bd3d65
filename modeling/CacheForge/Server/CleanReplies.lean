import CacheForge.Persistence.OneLine
import CacheForge.Server.Output
import CacheForge.Server.Pipeline

namespace CacheForge

def Command.Clean (cmd : Command) : Prop := ∀ a ∈ cmd.args, CacheForge.Clean a

theorem stripCr_clean {line : Str} (h : Clean line) : Clean (stripCr line) := by
  unfold stripCr
  split
  · exact fun hc => h (List.mem_of_mem_dropLast hc)
  · exact h

theorem extractCommands_clean {buffer line : Str} (h : line ∈ (extractCommands buffer).1) :
    Clean line := by
  rw [extractCommands_split] at h
  have hlines := (Lines.split_spec '\n' buffer).2.1
  generalize (Lines.split '\n' buffer).1 = ls at h hlines
  induction ls with
  | nil => cases h
  | cons l ls ih =>
    have hrest : line ∈ ls.foldr pushCommand [] → Clean line :=
      fun hm => ih hm fun m hm => hlines m (by simp [hm])
    simp only [List.foldr_cons, pushCommand] at h
    split at h
    · exact hrest h
    · rcases List.mem_cons.mp h with rfl | h
      · exact stripCr_clean (hlines l (by simp))
      · exact hrest h

theorem readAndParse_clean {c : Connection} {o : Received} {line : Str}
    (h : line ∈ (c.readAndParse o).1) : Clean line := by
  cases o with
  | bytes chunk => exact extractCommands_clean h
  | eof | again | error => cases h

theorem link_lines_clean {v w : Link} {a : Act} {ms : List Note} (hstep : LinkStep v a w ms) :
    ∀ cmd ∈ extracted ms, cmd.Clean := by
  cases hstep with
  | recv out o h ho =>
    rw [(flow_recv o _).1]
    intro cmd hcmd
    obtain ⟨line,hline,rfl⟩ := List.mem_map.mp hcmd
    exact fun a ha => parseCommand_clean (readAndParse_clean hline) ha
  | flush out o h ho | send response n o h ho => simp [(flow_notes _ o).1]
  | dispatch cmd response h => simp [extracted, Note.line]
  | _ => simp [extracted]

theorem link_held_clean {v w : Link} {a : Act} {ms : List Note} (hstep : LinkStep v a w ms)
    (h : ∀ cmd ∈ v.held, cmd.Clean) : ∀ cmd ∈ w.held, cmd.Clean := by
  obtain ⟨lost,hflow,-⟩ := link_flow hstep
  intro cmd hcmd
  have hm : cmd ∈ v.held ++ extracted ms := by
    rw [hflow]
    simp [hcmd]
  rcases List.mem_append.mp hm with hv | hx
  · exact h cmd hv
  · exact link_lines_clean hstep cmd hx

def Note.exchange : Note → Option (Command × Str)
  | .dispatched cmd response => some (cmd, response)
  | _ => none

def exchanges (ns : List Note) : List (Command × Str) := ns.filterMap Note.exchange

theorem exchanges_parts (ns : List Note) :
    (exchanges ns).map Prod.fst = dispatched ns ∧ (exchanges ns).map Prod.snd = responses ns := by
  rw [exchanges, List.map_filterMap, List.map_filterMap]
  refine ⟨List.filterMap_congr fun n _ => ?_,List.filterMap_congr fun n _ => ?_⟩ <;> cases n <;> rfl

def Event.isFront : Event → Bool
  | .answer _ | .dispatch _ _ | .sweep _ _ _ => false
  | _ => true

namespace Server

variable {hash : Str → Nat}

def Undispatched (o : List Out) : Prop := ∀ c cmd response, Out.dispatched c cmd response ∉ o

theorem undispatched_nil : Undispatched [] := fun _ _ _ h => nomatch h

theorem undispatched_recv (c : Nat) (sock : Option Nat) (o : Received) (lines : List Str) :
    Undispatched (o.outs c sock ++ lines.map (.extracted c)) := by
  intro d cmd response h
  rcases List.mem_append.mp h with h | h
  · cases sock <;> cases o <;> simp [Received.outs] at h
  · simp at h

theorem undispatched_sent (c : Nat) (sock : Option Nat) (offered : Str) (o : Sent) :
    Undispatched (o.outs c sock offered) := by
  intro d cmd response h
  unfold Sent.outs at h
  split at h
  · cases h
  · split at h <;> simp at h

@[simp] theorem turn_dispatcher (site : Site) (t : Turn) (s : Server) :
    (s.turn site t).dispatcher = s.dispatcher := by
  obtain ⟨x,next,closes,submits,registers⟩ := t
  cases closes <;> cases submits <;> cases registers <;> rfl

theorem front_step {s t : Server} {e : Event} {o : List Out} (he : e.isFront = true)
    (h : (server hash).step s e = some (t, o)) : t.dispatcher = s.dispatcher ∧ Undispatched o := by
  have quietly {x : Option Server} (hx : quietly x = some (t, o))
      (ht : x = some t → t.dispatcher = s.dispatcher) :
      t.dispatcher = s.dispatcher ∧ Undispatched o := by
    obtain ⟨hnext,rfl⟩ := quietly_eq hx
    exact ⟨ht hnext,undispatched_nil⟩
  cases e with
  | accept fd =>
    refine quietly h fun hx => ?_
    simp only [acceptConnection] at hx
    split at hx <;> cases hx
    rfl
  | ready fd hup inp out =>
    refine quietly h fun hx => ?_
    simp only [handleEvent] at hx
    split at hx
    · cases hx
    · split at hx
      · cases hx
        rfl
      · split at hx <;> cases hx <;> rfl
  | loop =>
    refine quietly h fun hx => ?_
    simp only [handleLoop] at hx
    split at hx
    · obtain ⟨turn,-,rfl⟩ := Option.map_eq_some_iff.mp hx
      exact turn_dispatcher _ turn s
    · cases hx
  | recv x =>
    simp only [server, handleRecv] at h
    split at h
    · split at h
      · cases h
        exact ⟨rfl,undispatched_recv _ _ _ _⟩
      · cases h
    · cases h
  | flush x =>
    simp only [server, handleFlush] at h
    split at h
    · split at h
      · cases h
        exact ⟨rfl,undispatched_sent _ _ _ _⟩
      · cases h
    · cases h
  | take w =>
    refine quietly h fun hx => ?_
    simp only [take] at hx
    split at hx <;> cases hx
    rfl
  | send w x =>
    simp only [server, workerSend] at h
    split at h
    · split at h
      · cases h
        exact ⟨rfl,undispatched_sent _ _ _ _⟩
      · cases h
    · cases h
  | queue w =>
    refine quietly h fun hx => ?_
    simp only [workerQueue] at hx
    split at hx <;> cases hx
    rfl
  | clear w =>
    refine quietly h fun hx => ?_
    simp only [workerClear] at hx
    split at hx <;> cases hx
    rfl
  | answer | dispatch | sweep => cases he

theorem dispatcher_step {s t : Server} {e : Event} {o : List Out} (hs : s.Sound)
    (h : (server hash).step s e = some (t, o)) :
    (t.dispatcher = s.dispatcher ∧ Undispatched o) ∨
    (∃ (w : Nat) (r : Readings) (c : Nat) (cmd : Command),
      s.workers[w]? = some (some ⟨c, .running cmd⟩) ∧
      t.dispatcher = (s.dispatcher.dispatch hash r cmd).2 ∧
      o = [.dispatched c cmd (s.dispatcher.dispatch hash r cmd).1]) ∨
    ∃ now i order, t = s.sweep now i order ∧ o = [] := by
  cases e with
  | answer r => exact absurd ((sync_unreachable r hs).symm.trans h) (by simp)
  | dispatch w r =>
    simp only [server, workerDispatch] at h
    split at h
    · rename_i c cmd hw
      cases h
      exact .inr (.inl ⟨w,r,c,cmd,hw,rfl,rfl⟩)
    · cases h
  | sweep now i order =>
    cases h
    exact .inr (.inr ⟨now,i,order,rfl,rfl⟩)
  | accept | ready | loop | recv | flush | take | send | queue | clear =>
    exact .inl (front_step rfl h)

structure Tidy (s : Server) (os : List Out) : Prop where
  sound : s.Sound
  stored : s.dispatcher.storage.Values CacheForge.Clean
  held : ∀ c, ∀ cmd ∈ (s.link c).held, cmd.Clean
  replies : ∀ c cmd response, Out.dispatched c cmd response ∈ os → OneLine response

theorem running_held {s : Server} (hs : s.Sound) {w c : Nat} {cmd : Command}
    (h : s.workers[w]? = some (some ⟨c, .running cmd⟩)) : cmd ∈ (s.link c).held := by
  have hphase := (phases_self (hs.single c) h none).1
  simp [link, hphase, Link.held, Phase.held]

theorem Tidy.step {s t : Server} {os o : List Out} {e : Event} (hs : s.Tidy os)
    (h : (server hash).step s e = some (t, o)) : t.Tidy (os ++ o) := by
  have hp := step_projects hs.sound h
  have hheld : ∀ c, ∀ cmd ∈ (t.link c).held, cmd.Clean := by
    intro c
    rcases hp.cases c with hc | ⟨-,-,a,ha,-⟩
    · rw [hc.1]
      exact hs.held c
    · exact link_held_clean ha (hs.held c)
  have hkept (ho : ∀ c cmd response, Out.dispatched c cmd response ∈ o → OneLine response) :
      ∀ c cmd response, Out.dispatched c cmd response ∈ os ++ o → OneLine response := by
    intro c cmd response hm
    rcases List.mem_append.mp hm with hm | hm
    · exact hs.replies c cmd response hm
    · exact ho c cmd response hm
  rcases dispatcher_step hs.sound h with ⟨hd,ho⟩ | ⟨w,r,c,cmd,hw,hd,rfl⟩ | ⟨now,i,order,rfl,rfl⟩
  · exact ⟨hp.sound hs.sound,hd ▸ hs.stored,hheld,
      hkept fun c cmd response hm => absurd hm (ho c cmd response)⟩
  · refine ⟨hp.sound hs.sound,?_,hheld,hkept fun c' cmd' response hm => ?_⟩
    · rw [hd, (dispatch_effect hash r cmd s.dispatcher).1]
      exact hs.stored.effect r fun a ha => hs.held c cmd (running_held hs.sound hw) a ha
    · cases List.mem_singleton.mp hm
      exact dispatch_oneLine hs.stored r cmd
  · refine ⟨hp.sound hs.sound,?_,hheld,hkept fun _ _ _ hm => nomatch hm⟩
    obtain ⟨he,hx⟩ := Shard.sweepShard_spec now order (s.dispatcher.storage.shards i)
    exact hs.stored.quiet (Quiet.locked he hx)

theorem tidy_start (numThreads : Nat) {d : Dispatcher} (hd : d.storage.Values CacheForge.Clean) :
    (start numThreads d).Tidy [] := by
  have hs := sound_start numThreads d
  refine ⟨hs,hd,fun c cmd hcmd => ?_,fun _ _ _ hm => nomatch hm⟩
  rw [hs.blank c (Nat.zero_le c)] at hcmd
  cases hcmd

end Server

end CacheForge
