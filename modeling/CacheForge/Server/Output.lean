import CacheForge.Server.Simulation

namespace CacheForge

def Phase.sending : Phase → Option (Str × Nat)
  | .working (.sending response totalSent) => some (response, totalSent)
  | .working (.queueing response totalSent) => some (response, totalSent)
  | _ => none

def Server.sending (c : Nat) (s : Server) : Option (Str × Nat) :=
  (s.phases c).findSome? Phase.sending

def Link.sending (v : Link) : Option (Str × Nat) := v.phase.bind Phase.sending

theorem sending_link {s : Server} (hs : s.Sound) (c : Nat) :
    s.sending c = (s.link c).sending := by
  rw [Server.sending, Link.sending, hs.phases]
  cases (s.link c).phase with
  | none => rfl
  | some p => cases h : p.sending <;> simp [h]

def completed (current : Option (Str × Nat)) (rs : List Str) : List Str :=
  if current.isSome then rs.dropLast else rs

def partlySent (current : Option (Str × Nat)) : Str :=
  current.elim [] (fun p => p.1.take p.2)

def unsent (current : Option (Str × Nat)) : Str := current.elim [] (fun p => p.1.drop p.2)

theorem flatten_current {current : Option (Str × Nat)} {rs : List Str}
    (h : ∀ p ∈ current, rs.getLast? = some p.1) :
    rs.flatten = (completed current rs).flatten ++ partlySent current ++ unsent current := by
  cases current with
  | none => simp [completed, partlySent, unsent]
  | some p =>
    obtain ⟨response,n⟩ := p
    obtain ⟨before,rfl⟩ := List.getLast?_eq_some_iff.mp (h _ rfl)
    simp [completed, partlySent, unsent]

def Note.bytes : Note → Str
  | .sent bytes => bytes
  | _ => []

def Note.response : Note → Option Str
  | .dispatched _ response => some response
  | _ => none

def sentBytes (ns : List Note) : Str := ns.flatMap Note.bytes

def responses (ns : List Note) : List Str := ns.filterMap Note.response

theorem sentBytes_append (ns ms : List Note) : sentBytes (ns ++ ms) = sentBytes ns ++ sentBytes ms :=
  List.flatMap_append ..

theorem responses_append (ns ms : List Note) : responses (ns ++ ms) = responses ns ++ responses ms :=
  List.filterMap_append ..

def Link.pending (v : Link) : Str := v.conn.writeBuffer ++ unsent v.sending

theorem unsent_sendLoop (response : Str) (n : Nat) :
    unsent (Phase.working (sendLoop response n)).sending = response.drop n := by
  unfold sendLoop
  split
  · rfl
  · rename_i h
    exact (List.drop_eq_nil_of_le (not_lt.mp h)).symm

theorem responses_notes (offered : Str) (o : Sent) : responses (o.notes offered) = [] := by
  unfold Sent.notes
  split
  · rfl
  · cases o <;> rfl

theorem output_recv (o : Received) (lines : List Str) :
    responses (o.notes ++ lines.map .extracted) = [] ∧
      sentBytes (o.notes ++ lines.map .extracted) = [] := by
  have hn : responses o.notes = [] ∧ sentBytes o.notes = [] := by cases o <;> exact ⟨rfl,rfl⟩
  rw [responses_append, sentBytes_append, hn.1, hn.2]
  simp [responses, sentBytes, Note.response, Note.bytes]

theorem flush_flow {o : Sent} {c : Connection} (ho : o.possible c.writeBuffer = true)
    (hf : Note.failed ∉ o.notes c.writeBuffer) :
    c.writeBuffer = sentBytes (o.notes c.writeBuffer) ++ (c.flushWriteBuffer o).2.writeBuffer := by
  cases hb : c.writeBuffer with
  | nil => simp [Connection.flushWriteBuffer, Sent.notes, hb, sentBytes]
  | cons x bytes =>
    cases o with
    | bytes count => simp [Connection.flushWriteBuffer, Sent.notes, hb, sentBytes, Note.bytes]
    | again => simp [Connection.flushWriteBuffer, Sent.notes, hb, sentBytes]
    | error => simp [Sent.notes, hb] at hf

def Link.Drained (v : Link) : Act → Prop
  | .send (.bytes _) => v.conn.writeBuffer = []
  | _ => True

theorem send_flow {response : Str} {n : Nat} {o : Sent} {v : Link}
    (ho : o.possible (response.drop n) = true) (hf : Note.failed ∉ o.notes (response.drop n))
    (hd : v.Drained (.send o)) :
    v.conn.writeBuffer ++ response.drop n = sentBytes (o.notes (response.drop n)) ++
      ((sendCall response n o v.conn).2.writeBuffer ++
        unsent (Phase.working (sendCall response n o v.conn).1).sending) := by
  cases o with
  | bytes count =>
    have hb : v.conn.writeBuffer = [] := hd
    have hn : response.drop n ≠ [] := by
      intro hn
      simp only [Sent.possible, hn, List.length_nil, decide_eq_true_eq] at ho
      omega
    have hs : sentBytes (Sent.notes (response.drop n) (.bytes count)) =
        (response.drop n).take count := by
      simp [Sent.notes, hn, sentBytes, Note.bytes]
    have hu : unsent (Phase.working (sendLoop response (n + count))).sending =
        (response.drop n).drop count := by
      rw [unsent_sendLoop, List.drop_drop]
    simp only [sendCall, hb, hs, hu, List.nil_append, List.take_append_drop]
  | again =>
    have hs : Sent.notes (response.drop n) .again = [] := by simp [Sent.notes]
    rw [hs]
    rfl
  | error =>
    have hn : response.drop n = [] := by
      by_contra hn
      simp [Sent.notes, hn] at hf
    rw [hn]
    rfl

theorem link_output {v w : Link} {a : Act} {ms : List Note} (hstep : LinkStep v a w ms)
    (hd : v.Drained a) (hf : Note.failed ∉ ms) :
    v.pending ++ (responses ms).flatten = sentBytes ms ++ w.pending := by
  cases hstep with
  | accepted fd h =>
    rw [h]
    rfl
  | recv out o h ho =>
    have hb : (v.conn.readAndParse o).2.writeBuffer = v.conn.writeBuffer := by cases o <;> rfl
    rw [(output_recv _ _).1, (output_recv _ _).2]
    simp [Link.pending, Link.sending, hb]
  | flush out o h ho =>
    have hb := flush_flow ho hf
    rw [responses_notes]
    simp only [Link.pending, List.flatten_nil, List.append_nil]
    rw [← List.append_assoc, ← hb]
    rfl
  | submitted out cmd commands h hp =>
    simp [Link.pending, Link.sending, hp, Phase.sending, responses, sentBytes]
  | take cmd h => simp [Link.pending, Link.sending, h, Phase.sending, responses, sentBytes]
  | dispatch cmd response h =>
    have hu := unsent_sendLoop response 0
    simp only [Link.pending, Link.sending, h, Option.bind_some, hu]
    simp [Phase.sending, unsent, responses, sentBytes, Note.response, Note.bytes]
  | send response n o h ho =>
    have hp : v.pending = v.conn.writeBuffer ++ response.drop n := by
      simp [Link.pending, Link.sending, h, Phase.sending, unsent]
    rw [hp, responses_notes, List.flatten_nil, List.append_nil]
    exact send_flow ho hf hd
  | queue response n h =>
    simp [Link.pending, Link.sending, h, Phase.sending, unsent, responses, sentBytes,
      Connection.queueResponse]
  | clear h =>
    simp [Link.pending, Link.sending, h, Phase.sending, responses, sentBytes,
      Connection.clearInFlight]
  | _ => simp [Link.pending, Link.sending, responses, sentBytes]

theorem sending_sendLoop {response : Str} {n : Nat} {p : Str × Nat}
    (h : p ∈ (Phase.working (sendLoop response n)).sending) : p.1 = response := by
  unfold sendLoop at h
  split at h
  · simp only [Phase.sending, Option.mem_some_iff] at h
    rw [← h]
  · cases h

theorem link_current {v w : Link} {a : Act} {ns ms : List Note} (hstep : LinkStep v a w ms)
    (h : ∀ p ∈ v.sending, (responses ns).getLast? = some p.1) :
    ∀ p ∈ w.sending, (responses (ns ++ ms)).getLast? = some p.1 := by
  intro p hp
  rw [responses_append]
  cases hstep with
  | accepted => cases hp
  | recv out o hv ho =>
    rw [(output_recv _ _).1, List.append_nil]
    exact h p hp
  | flush out o hv ho =>
    rw [responses_notes, List.append_nil]
    exact h p hp
  | submitted | take | queue | clear => cases hp
  | dispatch cmd response hv =>
    have hr : p.1 = response := sending_sendLoop hp
    simp [responses, Note.response, hr]
  | send response n o hv ho =>
    have hl : (responses ns).getLast? = some response :=
      h (response, n) (by simp [Link.sending, hv, Phase.sending])
    have hr : p.1 = response := by
      cases o with
      | bytes count => exact sending_sendLoop hp
      | again =>
        cases hp
        rfl
      | error => cases hp
    rw [responses_notes, List.append_nil, hr, hl]
  | _ =>
    rw [show responses [] = [] from rfl, List.append_nil]
    exact h p hp

def Drained (c : Nat) (s : Server) : Event → Prop
  | .send w (.bytes _) => s.sender w = some c → (s.conns c).writeBuffer = []
  | _ => True

theorem Drained.link {c : Nat} {s : Server} {e : Event} {a : Act} (h : Drained c s e)
    (ht : s.Traces e c a) : (s.link c).Drained a := by
  cases a with
  | silent | recv => trivial
  | send o =>
    cases o with
    | bytes count =>
      obtain ⟨w,rfl,hw⟩ := ht
      exact h hw
    | again | error => trivial

instance (c : Nat) (s : Server) : DecidablePred (Drained c s)
  | .send _ (.bytes _) => inferInstanceAs (Decidable (_ → _))
  | .send _ .again | .send _ .error => isTrue trivial
  | .accept _ | .ready _ _ _ _ | .loop | .answer _ | .recv _ | .flush _ | .take _ | .dispatch _ _
  | .queue _ | .clear _ | .sweep _ _ _ => isTrue trivial

section

variable {hash : Str → Nat} {numThreads : Nat} {d : Dispatcher} {es : List Event} {s : Server}
  {os : List Out}

theorem output_flow (c : Nat) (h : (server hash).Run (Drained c) (.start numThreads d) es s os)
    (hf : Note.failed ∉ notes c os) :
    sentBytes (notes c os) ++ (s.link c).pending = (responses (notes c os)).flatten := by
  refine Server.run_link c
    (fun v ns => Note.failed ∉ ns → sentBytes ns ++ v.pending = (responses ns).flatten)
    Link.Drained (fun _ _ _ hg ht => hg.link ht) (fun _ => rfl) ?_ h hf
  intro v a w ns ms _ hi hg hstep hn
  simp only [List.mem_append, not_or] at hn
  rw [sentBytes_append, responses_append, List.flatten_append]
  exact Machine.flow_append (hi hn.1) (link_output hstep hg hn.2)

theorem output_current (c : Nat) {P : Server → Event → Prop}
    (h : (server hash).Run P (.start numThreads d) es s os) :
    ∀ p ∈ (s.link c).sending, (responses (notes c os)).getLast? = some p.1 := by
  refine Server.run_link c (fun v ns => ∀ p ∈ v.sending, (responses ns).getLast? = some p.1)
    (fun _ _ => True) (fun _ _ _ _ _ => trivial) (fun _ hp => nomatch hp) ?_ h
  intro v a w ns ms _ hl _ hstep
  exact link_current hstep hl

end

theorem failed_notes {c : Nat} {os : List Out} (h : Out.failed c ∉ os) :
    Note.failed ∉ notes c os := by
  intro hn
  obtain ⟨o,ho,hnote⟩ := List.mem_filterMap.mp hn
  cases o with
  | received | extracted | dispatched | sent =>
    simp only [Out.note] at hnote
    split at hnote <;> cases hnote
  | failed b =>
    rcases eq_or_ne b c with rfl | hb
    · exact h ho
    · simp [Out.note, hb] at hnote

theorem drained_sends_keep_order (hash : Str → Nat) (numThreads : Nat) (d : Dispatcher)
    {es : List Event} {s : Server} {os : List Out} (c : Nat)
    (h : (server hash).Run (Drained c) (.start numThreads d) es s os)
    (hf : Out.failed c ∉ os) :
    sentBytes (notes c os) ++ (s.conns c).writeBuffer =
      (completed (s.sending c) (responses (notes c os))).flatten ++ partlySent (s.sending c) ∧
    (∀ p ∈ s.sending c, (responses (notes c os)).getLast? = some p.1) ∧
    sentBytes (notes c os) <+: (responses (notes c os)).flatten := by
  have hflow := output_flow c h (failed_notes hf)
  have hlast := output_current c h
  rw [sending_link (Server.run_sound h)]
  refine ⟨?_,hlast,⟨_,hflow⟩⟩
  have hall := hflow.trans (flatten_current hlast)
  rw [Link.pending, ← List.append_assoc] at hall
  exact List.append_cancel_right hall

def twoWorkers : Server := .start 2 (.create (.create 48) none 0)

def pongInPieces : List Event :=
  [.accept 5, .ready 5 false true false, .loop, .recv (.bytes "PING\n".toList), .loop, .loop, .loop,
    .take 1, .dispatch 1 ⟨0, 0⟩, .send 1 (.bytes 2), .send 1 .again, .queue 1, .loop, .clear 1,
    .loop, .ready 5 false true true, .loop, .recv (.bytes "GET k\n".toList), .loop, .loop, .loop,
    .take 0, .loop, .loop, .flush (.bytes 4), .dispatch 0 ⟨0, 0⟩, .send 0 (.bytes 3)]

theorem pong_before_nil :
    ∃ s os, (server (fun _ => 0)).Run (Drained 0) twoWorkers pongInPieces s os ∧
      (sentBytes (notes 0 os) ++ (s.conns 0).writeBuffer =
          (completed (s.sending 0) (responses (notes 0 os))).flatten ++ partlySent (s.sending 0) ∧
        (∀ p ∈ s.sending 0, (responses (notes 0 os)).getLast? = some p.1) ∧
        sentBytes (notes 0 os) <+: (responses (notes 0 os)).flatten) ∧
      sentBytes (notes 0 os) = "+PONG\n$ni".toList :=
  ⟨_,_,Machine.run_of_exec (by decide +kernel),
    drained_sends_keep_order _ _ _ 0 (Machine.run_of_exec (by decide +kernel))
      (by decide +kernel),by decide +kernel⟩

def pongQueued : List Event :=
  [.accept 5, .ready 5 false true false, .loop, .recv (.bytes "PING\n".toList), .loop, .loop, .loop,
    .take 1, .dispatch 1 ⟨0, 0⟩, .send 1 .again, .queue 1, .clear 1, .loop, .loop,
    .ready 5 false true false, .loop, .recv (.bytes "GET k\n".toList), .loop, .loop, .loop, .take 0,
    .dispatch 0 ⟨0, 0⟩, .send 0 (.bytes 5), .clear 0, .loop, .loop]

theorem nil_overtakes_pong :
    ∃ s os, (server (fun _ => 0)).Run Machine.anyStep twoWorkers pongQueued s os ∧
      Out.failed 0 ∉ os ∧ s.sending 0 = none ∧
      responses (notes 0 os) = ["+PONG\n".toList, "$nil\n".toList] ∧
      sentBytes (notes 0 os) = "$nil\n".toList ∧
      (s.conns 0).writeBuffer = "+PONG\n".toList :=
  ⟨_,_,Machine.run_of_exec (by decide +kernel),by decide +kernel⟩

end CacheForge
