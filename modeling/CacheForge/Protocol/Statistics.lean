import CacheForge.Protocol.Workers

namespace CacheForge

namespace Command

def validGet (cmd : Command) : Bool := cmd.type = .get ∧ 1 ≤ cmd.args.length

def validSet (cmd : Command) : Bool := cmd.type = .set ∧ 2 ≤ cmd.args.length

def validDel (cmd : Command) : Bool := cmd.type = .del ∧ 1 ≤ cmd.args.length

end Command

namespace Notice

def command? : Notice → Option Command
  | called cmd => some cmd
  | _ => none

def isHit : Notice → Bool
  | got value => value.isSome
  | _ => false

end Notice

def commands (ns : List Notice) : List Command := ns.filterMap Notice.command?

inductive Debt where
  | request | read | write | branch | lookup | hit

namespace Activity

def owes : Activity → Debt → Nat
  | called cmd => fun
      | .request => 1
      | .read => cmd.validGet.toNat
      | .write => cmd.validSet.toNat + cmd.validDel.toNat
      | _ => 0
  | switching cmd => fun
      | .read => cmd.validGet.toNat
      | .write => cmd.validSet.toNat + cmd.validDel.toNat
      | .branch => 1
      | _ => 0
  | getting _ => fun
      | .lookup => 1
      | _ => 0
  | looked value => fun
      | .lookup => 1
      | .hit => value.isSome.toNat
      | _ => 0
  | _ => 0

end Activity

structure Statistics where
  totalRequests : Nat
  totalReads : Nat
  totalWrites : Nat
  cacheHits : Nat
  cacheMisses : Nat

def Dispatcher.statistics (d : Dispatcher) : Statistics :=
  ⟨d.totalRequests, d.totalReads, d.totalWrites, d.cacheHits, d.cacheMisses⟩

@[mk_iff]
structure Booked (c : Statistics) (owed : Debt → Nat) (ns : List Notice) : Prop where
  requests : c.totalRequests + owed .request = (commands ns).length
  reads : c.totalReads + owed .read = (commands ns).countP Command.validGet
  writes : c.totalWrites + owed .write =
    (commands ns).countP Command.validSet + (commands ns).countP Command.validDel
  branches : c.totalReads + c.totalWrites + owed .branch ≤ c.totalRequests
  lookups : c.cacheHits + c.cacheMisses + owed .lookup = c.totalReads
  hits : c.cacheHits + owed .hit = ns.countP Notice.isHit

theorem countP_noticed {α : Type} (p : α → Bool) (l : List α) (x : α) :
    (l ++ [x]).countP p = l.countP p + (p x).toNat := by
  cases hx : p x <;> simp [hx]

theorem commands_called (ns : List Notice) (cmd : Command) :
    commands (ns ++ [.called cmd]) = commands ns ++ [cmd] := by
  simp [commands, Notice.command?]

theorem commands_same (ns : List Notice) {n : Notice} (h : n.command? = none) :
    commands (ns ++ [n]) = commands ns := by
  simp [commands, h]

namespace Booked

variable {c : Statistics} {d : Dispatcher} {frame : Debt → Nat} {ns : List Notice} {cmd : Command}

theorem called (h : Booked c (frame + Activity.idle.owes) ns) (cmd : Command) :
    Booked c (frame + (Activity.called cmd).owes) (ns ++ [.called cmd]) := by
  simp only [booked_iff, commands_called, countP_noticed, List.length_append, List.length_singleton,
    Notice.isHit, Bool.toNat_false, Activity.owes, Pi.add_apply, Pi.zero_apply] at h ⊢
  omega

theorem counted (h : Booked c (frame + (Activity.called cmd).owes) ns) :
    Booked { c with totalRequests := c.totalRequests + 1 }
      (frame + (Activity.switching cmd).owes) ns := by
  simp only [booked_iff, Activity.owes, Pi.add_apply] at h ⊢
  omega

theorem passed (h : Booked c (frame + (Activity.switching cmd).owes) ns)
    (hg : cmd.validGet = false) (hs : cmd.validSet = false) (hd : cmd.validDel = false) :
    Booked c (frame + 0) ns := by
  simp only [booked_iff, Activity.owes, Pi.add_apply, Pi.zero_apply, hg, hs, hd,
    Bool.toNat_false] at h ⊢
  omega

theorem read (h : Booked c (frame + (Activity.switching cmd).owes) ns)
    (hg : cmd.validGet = true) (hs : cmd.validSet = false) (hd : cmd.validDel = false) (k : Str) :
    Booked { c with totalReads := c.totalReads + 1 } (frame + (Activity.getting k).owes) ns := by
  simp only [booked_iff, Activity.owes, Pi.add_apply, hg, hs, hd, Bool.toNat_false,
    Bool.toNat_true] at h ⊢
  omega

theorem written (h : Booked c (frame + (Activity.switching cmd).owes) ns)
    (hg : cmd.validGet = false) (hw : cmd.validSet.toNat + cmd.validDel.toNat = 1) :
    Booked { c with totalWrites := c.totalWrites + 1 } (frame + 0) ns := by
  simp only [booked_iff, Activity.owes, Pi.add_apply, Pi.zero_apply, hg, hw,
    Bool.toNat_false] at h ⊢
  omega

theorem got {k : Str} (h : Booked c (frame + (Activity.getting k).owes) ns) (value : Option Str) :
    Booked c (frame + (Activity.looked value).owes) (ns ++ [.got value]) := by
  have hc : commands (ns ++ [.got value]) = commands ns := commands_same ns rfl
  simp only [booked_iff, hc, countP_noticed, Notice.isHit, Activity.owes, Pi.add_apply] at h ⊢
  omega

theorem resolved {value : Option Str}
    (h : Booked d.statistics (frame + (Activity.looked value).owes) ns) :
    Booked (Activity.count value d).2.statistics (frame + 0) ns := by
  cases value <;>
    simp only [booked_iff, Dispatcher.statistics, Activity.count, Activity.owes, Pi.add_apply,
      Pi.zero_apply, Option.isSome_none, Option.isSome_some, Bool.toNat_false,
      Bool.toNat_true] at h ⊢ <;>
    omega

theorem returned (h : Booked c (frame + 0) ns) (response : Str) :
    Booked c (frame + 0) (ns ++ [.returned response]) := by
  have hc : commands (ns ++ [.returned response]) = commands ns := commands_same ns rfl
  simpa only [booked_iff, hc, countP_noticed, Notice.isHit, Bool.toNat_false, Nat.add_zero] using h

theorem switched (h : Booked d.statistics (frame + (Activity.switching cmd).owes) ns)
    (r : Readings) :
    Booked (Activity.switchOn r cmd d).2.statistics (frame + (Activity.switchOn r cmd d).1.owes)
      ns := by
  obtain ⟨type,args⟩ := cmd
  cases type with
  | ping | stats | unknown => exact h.passed rfl rfl rfl
  | set =>
    rcases args with _ | ⟨k,_ | ⟨v,rest⟩⟩
    · exact h.passed rfl rfl rfl
    · exact h.passed rfl rfl rfl
    · exact h.written rfl (by simp [Command.validSet, Command.validDel])
  | get =>
    rcases args with _ | ⟨k,rest⟩
    · exact h.passed rfl rfl rfl
    · exact h.read (by simp [Command.validGet]) rfl rfl k
  | del =>
    rcases args with _ | ⟨k,rest⟩
    · exact h.passed rfl rfl rfl
    · exact h.written rfl (by simp [Command.validSet, Command.validDel])
  | expire =>
    have hpass := h.passed rfl rfl rfl
    rcases args with _ | ⟨k,_ | ⟨a,rest⟩⟩
    · exact hpass
    · exact hpass
    · simp only [Activity.switchOn, Activity.switchExpire]
      cases stoll a <;> exact hpass
  | ttl => cases args <;> exact h.passed rfl rfl rfl

theorem settled {rec : Record} {o : Bool × ShardedStorage}
    (h : Booked d.statistics (frame + 0) ns) :
    Booked (Activity.settle rec o d).2.statistics (frame + (Activity.settle rec o d).1.owes)
      ns := by
  obtain ⟨b,st⟩ := o
  cases b <;> exact h

theorem silently {x : Activity × Dispatcher} {a : Activity} {ns' : List Notice}
    (hs : Activity.silently x = some (a, d, ns'))
    (h : Booked x.2.statistics (frame + x.1.owes) ns) :
    Booked d.statistics (frame + a.owes) (ns ++ ns') := by
  cases hs
  rwa [List.append_nil]

theorem advance {hash : Str → Nat} {r : Readings} {a a' : Activity} {d' : Dispatcher}
    {ns' : List Notice} (h : Booked d.statistics (frame + a.owes) ns)
    (hs : a.advance hash r d = some (a', d', ns')) :
    Booked d'.statistics (frame + a'.owes) (ns ++ ns') := by
  cases a with
  | idle => cases hs
  | called cmd => exact silently hs h.counted
  | switching cmd => exact silently hs (h.switched r)
  | storing | timing | logging => exact silently hs h
  | getting key =>
    cases hs
    exact h.got _
  | looked value => cases value <;> exact silently hs h.resolved
  | deleting | expiring => exact silently hs h.settled
  | loading uptime rest stats => cases rest <;> exact silently hs h
  | sizing uptime stats rest total => cases rest <;> exact silently hs h
  | replying response =>
    cases hs
    exact h.returned response

end Booked

def Workers.owed (s : Workers) : Debt → Nat := (s.activities.map Activity.owes).sum

section

variable {hash : Str → Nat} {storage : ShardedStorage} {aofWriter : Option AOFWriter}
  {startTime : Int} {n : Nat} {es : List WorkerEvent} {s : Workers} {ns : List Notice}

theorem owed_idle (h : ∀ a ∈ s.activities, a = .idle) : s.owed = 0 := by
  refine List.sum_eq_zero fun x hx => ?_
  obtain ⟨a,ha,rfl⟩ := List.mem_map.mp hx
  rw [h a ha]
  rfl

theorem step_booked {t : Workers} {e : WorkerEvent} {ns' : List Notice}
    (h : Booked s.dispatcher.statistics s.owed ns)
    (hs : (dispatching hash).step s e = some (t, ns')) :
    Booked t.dispatcher.statistics t.owed (ns ++ ns') := by
  cases e with
  | call w cmd =>
    simp only [dispatching] at hs
    split at hs
    · rename_i hw
      cases hs
      obtain ⟨frame,hold,hnew⟩ := Machine.sum_set Activity.owes hw (.called cmd)
      rw [Workers.owed, hold] at h
      rw [Workers.owed, hnew]
      exact h.called cmd
    · cases hs
  | step w r =>
    simp only [dispatching] at hs
    split at hs
    · cases hs
    · rename_i a hw
      obtain ⟨⟨a',d',ns''⟩,ha,hx⟩ := Option.map_eq_some_iff.mp hs
      cases hx
      obtain ⟨frame,hold,hnew⟩ := Machine.sum_set Activity.owes hw a'
      rw [Workers.owed, hold] at h
      rw [Workers.owed, hnew]
      exact h.advance ha
  | sweep now i order =>
    cases hs
    exact (List.append_nil ns).symm ▸ h

theorem run_booked
    (h : (dispatching hash).Run Machine.anyStep (.start storage aofWriter startTime n) es s ns) :
    Booked s.dispatcher.statistics s.owed ns := by
  refine h.invariant (fun s ns => Booked s.dispatcher.statistics s.owed ns) ?_
    fun s ns e t ns' hb _ hs => step_booked hb hs
  rw [owed_idle fun a ha => List.eq_of_mem_replicate ha]
  exact ⟨rfl,rfl,rfl,Nat.le_refl _,rfl,rfl⟩

end

theorem statistics_consistent (hash : Str → Nat) (storage : ShardedStorage)
    (aofWriter : Option AOFWriter) (startTime : Int) (n : Nat) {es : List WorkerEvent} {s : Workers}
    {ns : List Notice}
    (h : (dispatching hash).Run Machine.anyStep (.start storage aofWriter startTime n) es s ns) :
    s.dispatcher.cacheHits + s.dispatcher.cacheMisses ≤ s.dispatcher.totalReads ∧
    s.dispatcher.totalReads + s.dispatcher.totalWrites ≤ s.dispatcher.totalRequests ∧
    ((∀ a ∈ s.activities, a = .idle) →
      s.dispatcher.totalRequests = (commands ns).length ∧
      s.dispatcher.totalReads = s.dispatcher.cacheHits + s.dispatcher.cacheMisses ∧
      s.dispatcher.totalReads = (commands ns).countP Command.validGet ∧
      s.dispatcher.cacheHits = ns.countP Notice.isHit ∧
      s.dispatcher.totalWrites =
        (commands ns).countP Command.validSet + (commands ns).countP Command.validDel) := by
  have hb := run_booked h
  have hlookups := hb.lookups
  have hbranches := hb.branches
  simp only [Dispatcher.statistics] at hlookups hbranches
  refine ⟨by omega,by omega,fun hidle => ?_⟩
  rw [owed_idle hidle] at hb
  exact ⟨hb.requests,hb.lookups.symm,hb.reads,hb.hits,hb.writes⟩

def interleavedWorkers : List WorkerEvent :=
  [.call 0 ⟨.get, [['k']]⟩, .call 1 ⟨.set, [['k'], ['v']]⟩, .step 0 ⟨0, 0⟩, .step 1 ⟨0, 0⟩,
    .step 1 ⟨0, 0⟩, .step 0 ⟨0, 0⟩, .step 1 ⟨0, 0⟩, .step 0 ⟨1, 1⟩, .step 0 ⟨1, 1⟩,
    .step 1 ⟨1, 1⟩, .step 0 ⟨1, 1⟩, .step 1 ⟨1, 1⟩]

theorem interleaved_workers_counted :
    ∃ s ns, (dispatching (fun _ => 0)).Run Machine.anyStep (.start (.create 48) none 0 2)
        interleavedWorkers s ns ∧ (∀ a ∈ s.activities, a = .idle) ∧
      (s.dispatcher.totalRequests = (commands ns).length ∧
        s.dispatcher.totalReads = s.dispatcher.cacheHits + s.dispatcher.cacheMisses ∧
        s.dispatcher.totalReads = (commands ns).countP Command.validGet ∧
        s.dispatcher.cacheHits = ns.countP Notice.isHit ∧
        s.dispatcher.totalWrites =
          (commands ns).countP Command.validSet + (commands ns).countP Command.validDel) ∧
      s.dispatcher.totalRequests = 2 ∧ s.dispatcher.cacheHits = 1 :=
  ⟨_,_,Machine.run_of_exec (by decide +kernel),by decide +kernel,
    (statistics_consistent _ _ none 0 2 (Machine.run_of_exec (by decide +kernel))).2.2
      (by decide +kernel),by decide +kernel⟩

end CacheForge
