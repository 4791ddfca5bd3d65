import CacheForge.Server.Connection

namespace CacheForge

inductive Phase where
  | queued (cmd : Command)
  | working (p : Progress)
  deriving DecidableEq, Repr

@[ext] structure Link where
  conn : Connection
  interest : Option Bool
  stage : Option Pending
  phase : Option Phase
  deriving DecidableEq, Repr

inductive Note where
  | received (chunk : Str)
  | extracted (line : Str)
  | dispatched (cmd : Command) (response : Str)
  | sent (bytes : Str)
  | failed
  deriving DecidableEq, Repr

inductive Act where
  | silent
  | recv (o : Received)
  | send (o : Sent)
  deriving DecidableEq, Repr

def Received.notes : Received → List Note
  | .bytes chunk => [.received chunk]
  | _ => []

def Sent.notes (offered : Str) (o : Sent) : List Note :=
  if offered = [] then []
  else match o with
    | .bytes count => [.sent (offered.take count)]
    | .again => []
    | .error => [.failed]

def Link.blank : Link := ⟨.create 0, none, none, none⟩

inductive LinkStep (v : Link) : Act → Link → List Note → Prop
  | accepted (fd : Nat) (h : v = .blank) :
      LinkStep v .silent ⟨.create fd, some false, none, none⟩ []
  | hungUp (h : v.stage = none) : LinkStep v .silent { v with interest := none } []
  | ready (inp out : Bool) (h : v.stage = none) :
      LinkStep v .silent { v with stage := onReady inp out } []
  | busy (out : Bool) (h : v.stage = some (out, .reading)) (hf : v.conn.inFlight = true) :
      LinkStep v .silent { v with stage := afterRead out } []
  | free (out : Bool) (h : v.stage = some (out, .reading)) (hf : v.conn.inFlight = false) :
      LinkStep v .silent { v with stage := some (out, .receiving) } []
  | recv (out : Bool) (o : Received) (h : v.stage = some (out, .receiving))
      (ho : o.possible = true) :
      LinkStep v (.recv o)
        { v with
          conn := (v.conn.readAndParse o).2
          stage := some (out, .received (v.conn.readAndParse o).1) }
        (o.notes ++ (v.conn.readAndParse o).1.map .extracted)
  | broken (out : Bool) (commands : List Str) (h : v.stage = some (out, .received commands))
      (he : v.conn.hasError = true) :
      LinkStep v .silent { v with interest := none, stage := none } []
  | parsed (out : Bool) (commands : List Str) (h : v.stage = some (out, .received commands))
      (he : v.conn.hasError = false) :
      LinkStep v .silent { v with stage := some (out, .processing commands) } []
  | processed (out : Bool) (h : v.stage = some (out, .processing [])) :
      LinkStep v .silent { v with stage := some (out, .updating) } []
  | claimed (out : Bool) (cmd : Str) (commands : List Str)
      (h : v.stage = some (out, .processing (cmd :: commands))) (hf : v.conn.inFlight = false) :
      LinkStep v .silent
        { v with
          conn := { v.conn with inFlight := true }
          stage := some (out, .submitting (parseCommand cmd) commands) } []
  | submitted (out : Bool) (cmd : Command) (commands : List Str)
      (h : v.stage = some (out, .submitting cmd commands)) (hp : v.phase = none) :
      LinkStep v .silent
        { v with
          stage := some (out, .updating)
          phase := some (.queued cmd) } []
  | inspected (out : Bool) (h : v.stage = some (out, .updating)) :
      LinkStep v .silent { v with stage := some (out, .modifying v.conn.wantWrite) } []
  | modified (out want : Bool) (h : v.stage = some (out, .modifying want)) :
      LinkStep v .silent { v with interest := some want, stage := afterRead out } []
  | flush (out : Bool) (o : Sent) (h : v.stage = some (out, .writing))
      (ho : o.possible v.conn.writeBuffer = true) :
      LinkStep v .silent
        { v with
          conn := (v.conn.flushWriteBuffer o).2
          stage := some (false, .flushed) }
        (o.notes v.conn.writeBuffer)
  | dropped (out : Bool) (h : v.stage = some (out, .flushed)) (he : v.conn.hasError = true) :
      LinkStep v .silent { v with interest := none, stage := none } []
  | kept (out : Bool) (h : v.stage = some (out, .flushed)) (he : v.conn.hasError = false) :
      LinkStep v .silent { v with stage := some (false, .updating) } []
  | take (cmd : Command) (h : v.phase = some (.queued cmd)) :
      LinkStep v .silent { v with phase := some (.working (.running cmd)) } []
  | dispatch (cmd : Command) (response : Str) (h : v.phase = some (.working (.running cmd))) :
      LinkStep v .silent { v with phase := some (.working (sendLoop response 0)) }
        [.dispatched cmd response]
  | send (response : Str) (totalSent : Nat) (o : Sent)
      (h : v.phase = some (.working (.sending response totalSent)))
      (ho : o.possible (response.drop totalSent) = true) :
      LinkStep v (.send o)
        { v with
          conn := (sendCall response totalSent o v.conn).2
          phase := some (.working (sendCall response totalSent o v.conn).1) }
        (o.notes (response.drop totalSent))
  | queue (response : Str) (totalSent : Nat)
      (h : v.phase = some (.working (.queueing response totalSent))) :
      LinkStep v .silent
        { v with
          conn := v.conn.queueResponse (response.drop totalSent)
          phase := some (.working .clearing) } []
  | clear (h : v.phase = some (.working .clearing)) :
      LinkStep v .silent { v with conn := v.conn.clearInFlight, phase := none } []

def Link.turned (turn : Turn) (v : Link) : Link where
  conn := turn.conn
  interest := if turn.closes then none else turn.registers.or v.interest
  stage := turn.next
  phase := (turn.submits.map .queued).or v.phase

namespace Link

def Sound (v : Link) : Prop :=
  match v.stage.map Prod.snd with
  | some .receiving => v.phase = none ∧ v.conn.inFlight = false
  | some (.received _) => v.phase = none ∧ v.conn.inFlight = false
  | some (.processing _) => v.phase = none ∧ v.conn.inFlight = false
  | some (.submitting _ _) => v.phase = none ∧ v.conn.inFlight = true
  | some (.answering _ _) => False
  | _ => v.conn.inFlight = v.phase.isSome

theorem sound_blank : blank.Sound := rfl

theorem turn_step {v : Link} {out : Bool} {stage : Stage} {turn : Turn}
    (hs : v.Sound) (h : v.stage = some (out, stage)) (ht : loopTurn out stage v.conn = some turn) :
    LinkStep v .silent (v.turned turn) [] := by
  cases stage with
  | reading =>
    cases hf : v.conn.inFlight with
    | true =>
      simp only [loopTurn, hf, if_true] at ht
      cases ht
      exact .busy out h hf
    | false =>
      simp only [loopTurn, hf] at ht
      cases ht
      exact .free out h hf
  | receiving => cases ht
  | received commands =>
    cases he : v.conn.hasError with
    | true =>
      simp only [loopTurn, he, if_true] at ht
      cases ht
      exact .broken out commands h he
    | false =>
      simp only [loopTurn, he] at ht
      cases ht
      exact .parsed out commands h he
  | processing commands =>
    cases commands with
    | nil =>
      cases ht
      exact .processed out h
    | cons cmd commands =>
      cases hf : v.conn.inFlight with
      | true => simp [loopTurn, Connection.trySetInFlight, hf] at ht
      | false =>
        simp only [loopTurn, Connection.trySetInFlight, hf] at ht
        cases ht
        exact .claimed out cmd commands h hf
  | answering response commands => simp [Sound, h] at hs
  | submitting cmd commands =>
    have hp : v.phase = none := by
      simp only [Sound, h, Option.map_some] at hs
      exact hs.1
    cases ht
    exact .submitted out cmd commands h hp
  | updating =>
    cases ht
    exact .inspected out h
  | modifying want =>
    cases ht
    exact .modified out want h
  | writing => cases ht
  | flushed =>
    cases he : v.conn.hasError with
    | true =>
      simp only [loopTurn, he, if_true] at ht
      cases ht
      exact .dropped out h he
    | false =>
      simp only [loopTurn, he] at ht
      cases ht
      exact .kept out h he

theorem sound_idle {v : Link} (out : Bool) (h : v.conn.inFlight = v.phase.isSome) :
    ({ v with stage := afterRead out } : Link).Sound := by
  cases out <;> exact h

theorem sound_task {v : Link} {p : Phase} (hs : v.Sound) (h : v.phase = some p) :
    v.conn.inFlight = true ∧ ∀ conn phase, conn.inFlight = Option.isSome phase →
      ({ v with conn := conn, phase := phase } : Link).Sound := by
  rcases hv : v.stage with _ | ⟨out,stage⟩
  · simp_all [Sound]
  · cases stage <;> simp_all [Sound]

theorem sound_step {v w : Link} {a : Act} {ns : List Note} (hs : v.Sound)
    (hstep : LinkStep v a w ns) : w.Sound := by
  cases hstep with
  | accepted fd h => rfl
  | hungUp h =>
    simp only [Sound, h, Option.map_none] at hs ⊢
    exact hs
  | ready inp out h =>
    simp only [Sound, h, Option.map_none] at hs
    cases inp with
    | true => exact hs
    | false => exact sound_idle out hs
  | busy out h hf =>
    simp only [Sound, h, Option.map_some] at hs
    exact sound_idle out hs
  | free out h hf =>
    simp only [Sound, h, Option.map_some] at hs ⊢
    exact ⟨by simpa [hf] using hs,hf⟩
  | recv out o h ho =>
    simp only [Sound, h, Option.map_some, readAndParse_inFlight] at hs ⊢
    exact hs
  | modified out want h =>
    simp only [Sound, h, Option.map_some] at hs
    exact sound_idle (v := { v with interest := some want }) out hs
  | claimed out cmd commands h hf =>
    simp only [Sound, h, Option.map_some] at hs
    exact ⟨hs.1,rfl⟩
  | submitted out cmd commands h hp =>
    simp only [Sound, h, Option.map_some] at hs
    exact hs.2
  | broken out commands h he | processed out h =>
    simp only [Sound, h, Option.map_some] at hs ⊢
    simp [hs]
  | parsed out commands h he | inspected out h | dropped out h he | kept out h he =>
    simp only [Sound, h, Option.map_some] at hs ⊢
    exact hs
  | flush out o h ho =>
    simp only [Sound, h, Option.map_some, flushWriteBuffer_inFlight] at hs ⊢
    exact hs
  | take cmd h =>
    have ht := sound_task hs h
    exact ht.2 v.conn _ ht.1
  | dispatch cmd response h =>
    have ht := sound_task hs h
    exact ht.2 v.conn _ ht.1
  | send response totalSent o h ho =>
    have ht := sound_task hs h
    exact ht.2 _ _ (by simp [ht.1])
  | queue response totalSent h =>
    have ht := sound_task hs h
    exact ht.2 _ _ ht.1
  | clear h => exact (sound_task hs h).2 _ _ rfl

theorem hasError_step {v w : Link} {a : Act} {ns : List Note} (hstep : LinkStep v a w ns)
    (h : w.conn.hasError = false) : v.conn.hasError = false := by
  cases hstep with
  | accepted fd hv =>
    rw [hv]
    rfl
  | recv => exact readAndParse_hasError h
  | flush => exact flushWriteBuffer_hasError h
  | send => exact sendCall_hasError h
  | _ => exact h

end Link

end CacheForge
