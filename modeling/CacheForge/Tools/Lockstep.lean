import CacheForge.Server.CleanReplies
import CacheForge.Server.Framing
import CacheForge.Server.Routing
import CacheForge.Tools.CacheBench

namespace CacheForge

def Note.input : Note → Str
  | .received chunk => chunk
  | _ => []

def receivedBytes (ns : List Note) : Str := ns.flatMap Note.input

def linesRead (ns : List Note) : List Str := ns.filterMap Note.line

theorem input_notes (offered : Str) (o : Sent) :
    receivedBytes (o.notes offered) = [] ∧ linesRead (o.notes offered) = [] := by
  unfold Sent.notes
  split
  · exact ⟨rfl,rfl⟩
  · cases o <;> exact ⟨rfl,rfl⟩

theorem input_recv (o : Received) (ls : List Str) :
    receivedBytes (o.notes ++ ls.map .extracted) = o.chunk ∧
      linesRead (o.notes ++ ls.map .extracted) = ls := by
  have hls : (ls.map Note.extracted).flatMap Note.input = [] := by simp [Note.input]
  have hlines : (ls.map Note.extracted).filterMap Note.line = ls :=
    List.filterMap_map.trans List.filterMap_some
  cases o with
  | bytes chunk =>
    refine ⟨by simp [receivedBytes, Received.notes, Received.chunk, hls, Note.input],?_⟩
    exact hlines
  | eof | again | error => exact ⟨hls,hlines⟩

theorem link_input {v w : Link} {a : Act} {ms : List Note} (hstep : LinkStep v a w ms)
    (hclean : '\n' ∉ v.conn.readBuffer) :
    linesRead ms = framed (v.conn.readBuffer ++ receivedBytes ms) ∧
      w.conn.readBuffer = (Lines.split '\n' (v.conn.readBuffer ++ receivedBytes ms)).2 := by
  have hidle : framed v.conn.readBuffer = [] ∧
      (Lines.split '\n' v.conn.readBuffer).2 = v.conn.readBuffer := by
    rw [framed_clean hclean, Lines.split_clean '\n' _ hclean]
    exact ⟨rfl,rfl⟩
  cases hstep with
  | accepted fd h =>
    rw [h]
    exact ⟨rfl,rfl⟩
  | recv out o h ho =>
    rw [(input_recv o _).1, (input_recv o _).2]
    exact readAndParse_framed hclean o
  | flush out o h ho =>
    have hsame : (v.conn.flushWriteBuffer o).2.readBuffer = v.conn.readBuffer := by
      unfold Connection.flushWriteBuffer
      split
      · rfl
      · cases o <;> rfl
    rw [(input_notes _ o).1, (input_notes _ o).2, List.append_nil, hidle.1, hidle.2]
    exact ⟨rfl,hsame⟩
  | send response n o h ho =>
    have hsame : (sendCall response n o v.conn).2.readBuffer = v.conn.readBuffer := by
      cases o <;> rfl
    rw [(input_notes _ o).1, (input_notes _ o).2, List.append_nil, hidle.1, hidle.2]
    exact ⟨rfl,hsame⟩
  | _ => simp [receivedBytes, linesRead, Note.input, Note.line, hidle, Connection.queueResponse,
      Connection.clearInFlight]

theorem link_reply {v w : Link} {a : Act} {ms : List Note} (hstep : LinkStep v a w ms)
    (hd : v.Drained a) : sentBytes ms ++ w.pending <+: v.pending ++ (responses ms).flatten := by
  by_cases hf : Note.failed ∈ ms
  · cases hstep with
    | flush out o h ho =>
      cases o with
      | error =>
        have hsame : (v.conn.flushWriteBuffer .error).2.writeBuffer = v.conn.writeBuffer := by
          unfold Connection.flushWriteBuffer
          split <;> rfl
        have hsent : sentBytes (Sent.notes v.conn.writeBuffer .error) = [] := by
          unfold Sent.notes
          split <;> rfl
        rw [responses_notes, hsent]
        simp [Link.pending, Link.sending, hsame]
      | bytes | again =>
        unfold Sent.notes at hf
        split at hf <;> simp at hf
    | send response n o h ho =>
      cases o with
      | error =>
        have hsent : sentBytes (Sent.notes (response.drop n) .error) = [] := by
          unfold Sent.notes
          split <;> rfl
        rw [responses_notes, hsent]
        simp [Link.pending, Link.sending, sendCall, Connection.fail, Phase.sending, unsent]
      | bytes | again =>
        unfold Sent.notes at hf
        split at hf <;> simp at hf
    | recv out o h ho => cases o <;> simp [Received.notes] at hf
    | dispatch cmd response h => simp at hf
    | _ => cases hf
  · rw [link_output hstep hd hf]

theorem link_answers {v w : Link} {a : Act} {ms : List Note} (hstep : LinkStep v a w ms) :
    (dispatched ms = [] ∧ responses ms = []) ∨
      ∃ cmd response, ms = [.dispatched cmd response] ∧
        v.phase = some (.working (.running cmd)) := by
  cases hstep with
  | recv out o h ho => exact .inl ⟨(flow_recv o _).2,(output_recv o _).1⟩
  | flush out o h ho | send response n o h ho =>
    exact .inl ⟨(flow_notes _ o).2,responses_notes _ o⟩
  | dispatch cmd response h => exact .inr ⟨cmd,response,rfl,h⟩
  | _ => exact .inl ⟨rfl,rfl⟩

def Link.Unbuffered (v : Link) : Prop := v.sending ≠ none → v.conn.writeBuffer = []

theorem Link.Unbuffered.drained {v w : Link} {a : Act} {ms : List Note} (h : v.Unbuffered)
    (hstep : LinkStep v a w ms) : v.Drained a := by
  cases hstep with
  | send response n o hv ho =>
    cases o with
    | bytes count => exact h (by simp [Link.sending, hv, Phase.sending])
    | again | error => trivial
  | _ => trivial

theorem Link.Unbuffered.step {v w : Link} {a : Act} {ms : List Note} (h : v.Unbuffered)
    (hheld : v.held ≠ [] → v.conn.writeBuffer = []) (hstep : LinkStep v a w ms) : w.Unbuffered := by
  cases hstep with
  | accepted => exact fun hn => absurd rfl hn
  | recv out o hv ho =>
    have hsame : (v.conn.readAndParse o).2.writeBuffer = v.conn.writeBuffer := by cases o <;> rfl
    exact fun hn => hsame.trans (h hn)
  | flush out o hv ho =>
    intro hn
    have hb : v.conn.writeBuffer = [] := h hn
    simp [Connection.flushWriteBuffer, hb]
  | submitted | take => exact fun hn => absurd rfl hn
  | queue | clear => exact fun hn => absurd rfl hn
  | dispatch cmd response hv => exact fun _ => hheld (by simp [Link.held, hv, Phase.held])
  | send response n o hv ho =>
    have hb : v.conn.writeBuffer = [] := h (by simp [Link.sending, hv, Phase.sending])
    intro _
    cases o <;> exact hb
  | _ => exact h

section

variable {done : List Command} {replies : List Str} {toServer : Str} {v w : Link} {a : Act}
  {ns ms : List Note}

variable (done replies toServer v ns) in
structure Unread (sent : Str) : Prop where
  bytes : v.conn.readBuffer ++ toServer = sent
  clean : '\n' ∉ v.conn.readBuffer
  asked : dispatched ns = done
  answers : responses ns = replies
  held : v.held = []
  pending : v.pending = []

variable (done replies toServer v ns) in
structure Waiting (cmd : Command) : Prop where
  read : v.conn.readBuffer = []
  nothing : toServer = []
  asked : dispatched ns = done
  answers : responses ns = replies
  held : v.held = [cmd] ∨ v.held = []
  pending : v.pending = []

variable (done replies toServer v ns) in
structure Answered (response gone : Str) : Prop where
  read : v.conn.readBuffer = []
  nothing : toServer = []
  asked : dispatched ns = done
  answers : responses ns = replies ++ [response]
  held : v.held = []
  bytes : gone ++ v.pending <+: response
  unbuffered : v.Unbuffered

theorem unbuffered_of_pending (h : v.pending = []) : v.Unbuffered :=
  fun _ => (List.append_eq_nil_iff.mp h).1

theorem silent_step (hstep : LinkStep v a w ms) (hpending : v.pending = [])
    (hnone : responses ms = []) : w.pending = [] ∧ sentBytes ms = [] := by
  have hreply := link_reply hstep ((unbuffered_of_pending hpending).drained hstep)
  rw [hpending, hnone, List.flatten_nil, List.append_nil, List.prefix_nil,
    List.append_eq_nil_iff] at hreply
  exact hreply.symm

theorem idle_answers (hstep : LinkStep v a w ms) (hheld : v.held = []) :
    dispatched ms = [] ∧ responses ms = [] := by
  rcases link_answers hstep with hnone | ⟨cmd,response,-,hphase⟩
  · exact hnone
  · simp [Link.held, hphase, Phase.held] at hheld

theorem Unread.reads {sent : Str} (h : Unread done replies toServer v ns sent)
    (hstep : LinkStep v a w ms) (hgot : receivedBytes ms <+: toServer)
    (hn : '\n' ∉ v.conn.readBuffer ++ receivedBytes ms) :
    Unread done replies (toServer.drop (receivedBytes ms).length) w (ns ++ ms) sent ∧
      sentBytes ms = [] := by
  obtain ⟨hlines,hbuf⟩ := link_input hstep h.clean
  rw [framed_clean hn] at hlines
  rw [Lines.split_clean '\n' _ hn] at hbuf
  obtain ⟨hasked,hanswers⟩ := idle_answers hstep h.held
  obtain ⟨hpending,hsent⟩ := silent_step hstep h.pending hanswers
  obtain ⟨lost,hflow,-⟩ := link_flow hstep
  rw [h.held, extracted, ← linesRead, hlines, hasked] at hflow
  obtain ⟨rest,hrest⟩ := hgot
  refine ⟨⟨?_,hbuf ▸ hn,?_,?_,?_,hpending⟩,hsent⟩
  · rw [hbuf, ← hrest, List.drop_left, List.append_assoc, hrest]
    exact h.bytes
  · rw [dispatched_append, hasked, List.append_nil]
    exact h.asked
  · rw [responses_append, hanswers, List.append_nil]
    exact h.answers
  · rw [List.map_nil, List.append_nil, List.nil_append, List.nil_eq,
      List.append_eq_nil_iff] at hflow
    exact hflow.1

theorem framed_line {line : Str} (h : '\n' ∉ line) (hs : stripCr line ≠ []) :
    framed (line ++ ['\n']) = [stripCr line] := by
  rw [framed, Lines.split_line '\n' line [] h]
  simp [Lines.split, hs]

theorem whole_line {line front rest : Str} (h : '\n' ∉ line) (hn : '\n' ∈ front)
    (heq : front ++ rest = line ++ ['\n']) : front = line ++ ['\n'] ∧ rest = [] := by
  rcases List.append_eq_append_iff.mp heq with ⟨x,hx,hrest⟩ | ⟨x,hx,hrest⟩
  · rw [hx] at h
    exact absurd (List.mem_append_left _ hn) h
  · cases x with
    | nil =>
      rw [List.append_nil] at hx
      exact absurd (hx ▸ hn) h
    | cons c x =>
      simp only [List.cons_append, List.cons.injEq, List.nil_eq, List.append_eq_nil_iff] at hrest
      obtain ⟨rfl,rfl,rfl⟩ := hrest
      exact ⟨hx,rfl⟩

theorem Unread.takes {line : Str} (h : Unread done replies toServer v ns (line ++ ['\n']))
    (hstep : LinkStep v a w ms) (hgot : receivedBytes ms <+: toServer) (hl : '\n' ∉ line)
    (hs : stripCr line ≠ []) (hn : '\n' ∈ v.conn.readBuffer ++ receivedBytes ms) :
    Waiting done replies (toServer.drop (receivedBytes ms).length) w (ns ++ ms)
      (parseCommand (stripCr line)) ∧ sentBytes ms = [] := by
  obtain ⟨rest,hrest⟩ := hgot
  have hbytes := h.bytes
  rw [← hrest, ← List.append_assoc] at hbytes
  obtain ⟨hall,rfl⟩ := whole_line hl hn hbytes
  obtain ⟨hlines,hbuf⟩ := link_input hstep h.clean
  rw [hall, framed_line hl hs] at hlines
  rw [hall, Lines.split_line '\n' line [] hl] at hbuf
  obtain ⟨hasked,hanswers⟩ := idle_answers hstep h.held
  obtain ⟨hpending,hsent⟩ := silent_step hstep h.pending hanswers
  obtain ⟨lost,hflow,-⟩ := link_flow hstep
  rw [h.held, extracted, ← linesRead, hlines, hasked] at hflow
  refine ⟨⟨hbuf,?_,?_,?_,?_,hpending⟩,hsent⟩
  · rw [← hrest, List.drop_left]
  · rw [dispatched_append, hasked, List.append_nil]
    exact h.asked
  · rw [responses_append, hanswers, List.append_nil]
    exact h.answers
  · cases hheld : w.held with
    | nil => exact .inr rfl
    | cons cmd rest =>
      simp only [hheld, List.map_cons, List.map_nil, List.nil_append, List.cons_append,
        List.cons.injEq, List.nil_eq, List.append_eq_nil_iff] at hflow
      exact .inl (by rw [hflow.1, hflow.2.1])

theorem no_input (hstep : LinkStep v a w ms) (hbuf : v.conn.readBuffer = [])
    (hgot : receivedBytes ms = []) : w.conn.readBuffer = [] ∧ extracted ms = [] := by
  obtain ⟨hlines,hnext⟩ := link_input hstep (by simp [hbuf])
  rw [hbuf, hgot] at hlines hnext
  refine ⟨hnext,?_⟩
  rw [extracted, ← linesRead, hlines]
  rfl

theorem Waiting.step {cmd : Command} (h : Waiting done replies toServer v ns cmd)
    (hstep : LinkStep v a w ms) (hgot : receivedBytes ms <+: toServer) :
    sentBytes ms = [] ∧
      (Waiting done replies (toServer.drop (receivedBytes ms).length) w (ns ++ ms) cmd ∨
        ∃ response, Answered (done ++ [cmd]) replies (toServer.drop (receivedBytes ms).length) w
          (ns ++ ms) response []) := by
  rw [h.nothing, List.prefix_nil] at hgot
  obtain ⟨hread,hnew⟩ := no_input hstep h.read hgot
  obtain ⟨lost,hflow,-⟩ := link_flow hstep
  rw [hnew, List.append_nil] at hflow
  have hpipe : toServer.drop (receivedBytes ms).length = [] := by simp [h.nothing]
  rcases link_answers hstep with ⟨hasked,hanswers⟩ | ⟨cmd',response,rfl,hphase⟩
  · obtain ⟨hpending,hsent⟩ := silent_step hstep h.pending hanswers
    refine ⟨hsent,.inl ⟨hread,hpipe,?_,?_,?_,hpending⟩⟩
    · rw [dispatched_append, hasked, List.append_nil]
      exact h.asked
    · rw [responses_append, hanswers, List.append_nil]
      exact h.answers
    · rw [hasked, List.nil_append] at hflow
      rcases h.held with hv | hv
      · cases hheld : w.held with
        | nil => exact .inr rfl
        | cons x rest =>
          simp only [hv, hheld, List.cons_append, List.cons.injEq, List.nil_eq,
            List.append_eq_nil_iff] at hflow
          exact .inl (by rw [hflow.1, hflow.2.1])
      · rw [hv, List.nil_eq, List.append_eq_nil_iff] at hflow
        exact .inr hflow.1
  · have hmem : cmd' ∈ v.held := by simp [Link.held, hphase, Phase.held]
    have hheld : v.held = [cmd] := h.held.resolve_right fun hv => by simp [hv] at hmem
    obtain rfl : cmd' = cmd := by simpa [hheld] using hmem
    have hunbuffered := unbuffered_of_pending h.pending
    have hreply := link_reply hstep (hunbuffered.drained hstep)
    rw [h.pending] at hreply
    rw [hheld] at hflow
    refine ⟨rfl,.inr ⟨response,hread,hpipe,?_,?_,?_,?_,?_⟩⟩
    · rw [dispatched_append, h.asked]
      rfl
    · rw [responses_append, h.answers]
      rfl
    · simp only [dispatched, Note.command, List.filterMap_cons, List.filterMap_nil,
        List.cons_append, List.nil_append, List.cons.injEq, true_and, List.nil_eq,
        List.append_eq_nil_iff] at hflow
      exact hflow.1
    · simpa [responses, Note.response, sentBytes, Note.bytes] using hreply
    · exact hunbuffered.step (fun _ => (List.append_eq_nil_iff.mp h.pending).1) hstep

theorem Answered.step {response gone : Str} (h : Answered done replies toServer v ns response gone)
    (hstep : LinkStep v a w ms) (hgot : receivedBytes ms <+: toServer) :
    Answered done replies (toServer.drop (receivedBytes ms).length) w (ns ++ ms) response
      (gone ++ sentBytes ms) := by
  rw [h.nothing, List.prefix_nil] at hgot
  obtain ⟨hread,hnew⟩ := no_input hstep h.read hgot
  obtain ⟨hasked,hanswers⟩ := idle_answers hstep h.held
  obtain ⟨lost,hflow,-⟩ := link_flow hstep
  rw [h.held, hnew, hasked] at hflow
  have hreply := link_reply hstep (h.unbuffered.drained hstep)
  rw [hanswers, List.flatten_nil, List.append_nil] at hreply
  refine ⟨hread,by simp [h.nothing],?_,?_,?_,?_,
    h.unbuffered.step (fun hn => absurd h.held hn) hstep⟩
  · rw [dispatched_append, hasked, List.append_nil]
    exact h.asked
  · rw [responses_append, hanswers, List.append_nil]
    exact h.answers
  · simp only [List.append_nil, List.nil_append, List.nil_eq, List.append_eq_nil_iff] at hflow
    exact hflow.1
  · rw [List.append_assoc]
    exact ((List.prefix_append_right_inj gone).mpr hreply).trans h.bytes

end

def BenchClient.asked (n : Nat) (b : BenchClient) : List Command :=
  (b.commands.take n).map (fun line => parseCommand (stripCr line))

theorem BenchClient.asked_next {b : BenchClient} {n : Nat} {line : Str}
    (h : b.commands[n]? = some line) :
    b.asked (n + 1) = b.asked n ++ [parseCommand (stripCr line)] := by
  rw [asked, asked, List.take_add_one, h, List.map_append]
  rfl

inductive Talk (b : BenchClient) (toServer toClient : Str) (v : Link) (ns : List Note) : Prop
  | ready (hstage : b.stage = .starting ∨ b.stage = .closed)
      (hlink : Unread (b.asked b.request) b.replies toServer v ns [])
      (hpipe : toClient = [])
  | sending (line : Str) (n : Nat) (hstage : b.stage = .sending (line ++ ['\n']) n)
      (hline : b.commands[b.request]? = some line) (hn : n ≤ line.length)
      (hlink : Unread (b.asked b.request) b.replies toServer v ns
        ((line ++ ['\n']).take n))
      (hpipe : toClient = [])
  | unread (line : Str) (hstage : b.stage = .receiving [])
      (hline : b.commands[b.request]? = some line)
      (hlink : Unread (b.asked b.request) b.replies toServer v ns
        (line ++ ['\n']))
      (hpipe : toClient = [])
  | waiting (line : Str) (hstage : b.stage = .receiving [])
      (hline : b.commands[b.request]? = some line)
      (hlink : Waiting (b.asked b.request) b.replies toServer v ns
        (parseCommand (stripCr line)))
      (hpipe : toClient = [])
  | answered (buffer response : Str) (hstage : b.stage = .receiving buffer)
      (hlink : Answered (b.asked (b.request + 1)) b.replies toServer v ns
        response (buffer ++ toClient))

def Sendable (line : Str) : Prop := '\n' ∉ line ∧ stripCr line ≠ []

instance (line : Str) : Decidable (Sendable line) := inferInstanceAs (Decidable (_ ∧ _))

section

variable {b c : BenchClient} {toServer toClient : Str} {v w : Link} {a : Act} {ns ms : List Note}

theorem Talk.link (h : Talk b toServer toClient v ns) (hstep : LinkStep v a w ms)
    (hgot : receivedBytes ms <+: toServer) (hs : ∀ line ∈ b.commands, Sendable line) :
    Talk b (toServer.drop (receivedBytes ms).length) (toClient ++ sentBytes ms) w (ns ++ ms) := by
  cases h with
  | ready hstage hlink hpipe =>
    have hn : '\n' ∉ v.conn.readBuffer ++ receivedBytes ms := by
      have hbytes := List.append_eq_nil_iff.mp hlink.bytes
      rw [hbytes.2, List.prefix_nil] at hgot
      simp [hbytes.1, hgot]
    obtain ⟨hnext,hsent⟩ := hlink.reads hstep hgot hn
    exact .ready hstage hnext (by rw [hpipe, hsent]; rfl)
  | sending line n hstage hline hn hlink hpipe =>
    have hclean : '\n' ∉ (line ++ ['\n']).take n := by
      rw [List.take_append_of_le_length hn]
      exact fun hc => (hs line (List.mem_of_getElem? hline)).1 (List.mem_of_mem_take hc)
    have hn' : '\n' ∉ v.conn.readBuffer ++ receivedBytes ms := by
      intro hc
      refine hclean (hlink.bytes ▸ ?_)
      rcases List.mem_append.mp hc with hc | hc
      · exact List.mem_append_left _ hc
      · exact List.mem_append_right _ (hgot.subset hc)
    obtain ⟨hnext,hsent⟩ := hlink.reads hstep hgot hn'
    exact .sending line n hstage hline hn hnext (by rw [hpipe, hsent]; rfl)
  | unread line hstage hline hlink hpipe =>
    obtain ⟨hclean,hstrip⟩ := hs line (List.mem_of_getElem? hline)
    by_cases hn : '\n' ∈ v.conn.readBuffer ++ receivedBytes ms
    · obtain ⟨hnext,hsent⟩ := hlink.takes hstep hgot hclean hstrip hn
      exact .waiting line hstage hline hnext (by rw [hpipe, hsent]; rfl)
    · obtain ⟨hnext,hsent⟩ := hlink.reads hstep hgot hn
      exact .unread line hstage hline hnext (by rw [hpipe, hsent]; rfl)
  | waiting line hstage hline hlink hpipe =>
    obtain ⟨hsent,hnext | ⟨response,hnext⟩⟩ := hlink.step hstep hgot
    · exact .waiting line hstage hline hnext (by rw [hpipe, hsent]; rfl)
    · rw [← BenchClient.asked_next hline] at hnext
      rw [hpipe, hsent]
      exact .answered [] response hstage hnext
  | answered buffer response hstage hlink =>
    have hnext := hlink.step hstep hgot
    rw [List.append_assoc] at hnext
    exact .answered buffer response hstage hnext

theorem Talk.start (h : Talk b toServer toClient v ns) (hb : b.start = some c) :
    Talk c toServer toClient v ns := by
  have hstage : b.stage = .starting := by
    unfold BenchClient.start at hb
    split at hb
    · assumption
    · cases hb
  cases h with
  | ready _ hlink hpipe =>
    simp only [BenchClient.start, hstage] at hb
    split at hb
    · rename_i line hline
      cases hb
      exact .sending line 0 rfl hline (Nat.zero_le _) hlink hpipe
    · cases hb
      exact .ready (.inr rfl) hlink hpipe
  | sending line n hs | unread line hs | waiting line hs | answered buffer response hs =>
    rw [hs] at hstage
    cases hstage

theorem Talk.send {count : Nat} {bytes : Str} (h : Talk b toServer toClient v ns)
    (hb : b.sendCommand count = some (c, bytes)) :
    Talk c (toServer ++ bytes) toClient v ns := by
  cases h with
  | sending line n hstage hline hn hlink hpipe =>
    simp only [BenchClient.sendCommand, hstage] at hb
    split at hb
    · rename_i hcount
      have hsent : Unread (b.asked b.request) b.replies
          (toServer ++ ((line ++ ['\n']).drop n).take count) v ns
          ((line ++ ['\n']).take (n + count)) := by
        refine { hlink with bytes := ?_ }
        rw [← List.append_assoc, hlink.bytes, List.take_add]
      cases hb
      by_cases hlt : n + count < (line ++ ['\n']).length
      · refine .sending line (n + count) (if_pos hlt) hline ?_ hsent hpipe
        simpa [Nat.lt_succ_iff] using hlt
      · rw [List.take_of_length_le (not_lt.mp hlt)] at hsent
        exact .unread line (if_neg hlt) hline hsent hpipe
    · cases hb
  | ready hstage =>
    rcases hstage with hstage | hstage <;> simp [BenchClient.sendCommand, hstage] at hb
  | unread line hs | waiting line hs | answered buffer response hs =>
    simp [BenchClient.sendCommand, hs] at hb

theorem complete_reply {buffer response rest : Str} {byte : Char} (hone : OneLine response)
    (hshort : response.length < recvBufSize) (h : buffer ++ [byte] ++ rest <+: response)
    (hend : byte = '\n' ∨ recvBufSize - 1 ≤ (buffer ++ [byte]).length) :
    buffer ++ [byte] = response ∧ rest = [] := by
  obtain ⟨tail,htail⟩ := h
  rw [List.append_assoc] at htail
  have hwhole : buffer ++ [byte] = response ∧ rest ++ tail = [] := by
    rcases hend with rfl | hlen
    · obtain ⟨body,hbody,rfl⟩ := hone
      exact whole_line hbody (by simp) htail
    · have hlength := congrArg List.length htail
      rw [List.length_append] at hlength
      have hnil : rest ++ tail = [] := List.eq_nil_of_length_eq_zero (by omega)
      rw [hnil, List.append_nil] at htail
      exact ⟨htail,hnil⟩
  exact ⟨hwhole.1,(List.append_eq_nil_iff.mp hwhole.2).1⟩

theorem Talk.recv {byte : Char} {rest : Str} (h : Talk b toServer (byte :: rest) v ns)
    (hb : b.recvResponse byte = some c)
    (hreply : ∀ response ∈ responses ns, OneLine response ∧ response.length < recvBufSize) :
    Talk c toServer rest v ns ∧ (b.replies.length = b.request → c.replies.length = c.request) := by
  cases h with
  | answered buffer response hstage hlink =>
    obtain ⟨hone,hshort⟩ := hreply response (by simp [hlink.answers])
    simp only [BenchClient.recvResponse, hstage] at hb
    have hgone : buffer ++ byte :: rest = buffer ++ [byte] ++ rest := by simp
    have hbytes := hlink.bytes
    rw [hgone, List.append_assoc] at hbytes
    split at hb
    · rename_i hend
      obtain ⟨hbuffer,hnil⟩ := complete_reply hone hshort hbytes hend
      obtain ⟨rfl,hpending⟩ := List.append_eq_nil_iff.mp hnil
      cases hb
      refine ⟨.ready (.inl rfl) ?_ rfl,by simp [BenchClient.next]⟩
      refine ⟨?_,?_,hlink.asked,?_,hlink.held,hpending⟩
      · rw [hlink.read, hlink.nothing]
        rfl
      · simp [hlink.read]
      · rw [hlink.answers, ← hbuffer]
        rfl
    · cases hb
      refine ⟨.answered (buffer ++ [byte]) response rfl ?_,id⟩
      rw [hgone] at hlink
      exact hlink
  | ready _ _ hp | sending _ _ _ _ _ _ hp | unread _ _ _ _ hp | waiting _ _ _ _ hp =>
    cases hp

end

theorem routed_bytes {o : List Out} (c : Nat)
    (h : ∀ x ∈ o, ∀ d k, x.route = some (d, k) → k = d) :
    o.flatMap (Out.bytesFrom c) = receivedBytes (notes c o) ∧
      o.flatMap (Out.bytesTo c) = sentBytes (notes c o) := by
  induction o with
  | nil => exact ⟨rfl,rfl⟩
  | cons x o ih =>
    obtain ⟨hfrom,hto⟩ := ih fun y hy => h y (by simp [hy])
    have hnotes : notes c (x :: o) = notes c [x] ++ notes c o := notes_append c [x] o
    simp only [List.flatMap_cons, hfrom, hto, hnotes, receivedBytes, sentBytes,
      List.flatMap_append]
    have hone : x.bytesFrom c = (notes c [x]).flatMap Note.input ∧
        x.bytesTo c = (notes c [x]).flatMap Note.bytes := by
      cases x with
      | received d k chunk =>
        obtain rfl := h (.received d k chunk) (by simp) d k rfl
        by_cases hc : k = c <;> simp [Out.bytesFrom, Out.bytesTo, notes, Out.note, hc, Note.input,
          Note.bytes]
      | sent d k bytes =>
        obtain rfl := h (.sent d k bytes) (by simp) d k rfl
        by_cases hc : k = c <;> simp [Out.bytesFrom, Out.bytesTo, notes, Out.note, hc, Note.input,
          Note.bytes]
      | extracted d line | dispatched d cmd response | failed d =>
        by_cases hc : d = c <;> simp [Out.bytesFrom, Out.bytesTo, notes, Out.note, hc, Note.input,
          Note.bytes]
    exact ⟨by rw [hone.1],by rw [hone.2]⟩

-- The kernel hands out no descriptor a task still sends to, and no call of the client fails.
def Conversation.Smooth (x : Conversation) : TalkEvent → Prop
  | .server e => x.server.FreshFd e
  | .fail => False
  | _ => True

instance (x : Conversation) : DecidablePred x.Smooth
  | .server e => inferInstanceAs (Decidable (x.server.FreshFd e))
  | .fail => isFalse id
  | .start | .send _ | .recv => isTrue trivial

def ShortReplies (ns : List Note) : Prop :=
  ∀ response ∈ responses ns, response.length < recvBufSize

structure Conversing (client : Nat) (commands : List Str) (x : Conversation) (os : List Out) :
    Prop where
  tidy : x.server.Tidy os
  routed : x.server.Routed
  commands : x.client.commands = commands
  talk : ShortReplies (notes client os) →
    Talk x.client x.toServer x.toClient (x.server.link client) (notes client os) ∧
      x.client.replies.length = x.client.request

theorem responses_oneLine {s : Server} {os : List Out} (h : s.Tidy os) {c : Nat} {response : Str}
    (hr : response ∈ responses (notes c os)) : OneLine response := by
  obtain ⟨n,hn,hresponse⟩ := List.mem_filterMap.mp hr
  obtain ⟨out,hout,hnote⟩ := List.mem_filterMap.mp hn
  cases out with
  | dispatched d cmd r =>
    simp only [Out.note] at hnote
    split at hnote
    · cases hnote
      cases hresponse
      exact h.replies d cmd response hout
    · cases hnote
  | received | extracted | sent | failed =>
    simp only [Out.note] at hnote
    split at hnote <;> cases hnote
    cases hresponse

namespace BenchClient

variable {b c : BenchClient}

theorem start_keeps (h : b.start = some c) : c.commands = b.commands ∧
    (c.replies.length = c.request ↔ b.replies.length = b.request) := by
  unfold start at h
  split at h
  · split at h <;> cases h <;> exact ⟨rfl,Iff.rfl⟩
  · cases h

theorem send_keeps {count : Nat} {bytes : Str} (h : b.sendCommand count = some (c, bytes)) :
    c.commands = b.commands ∧ (c.replies.length = c.request ↔ b.replies.length = b.request) := by
  unfold sendCommand at h
  split at h
  · split at h <;> cases h
    exact ⟨rfl,Iff.rfl⟩
  · cases h

theorem recv_keeps {byte : Char} (h : b.recvResponse byte = some c) : c.commands = b.commands := by
  unfold recvResponse at h
  split at h
  · dsimp only at h
    split at h <;> cases h <;> rfl
  · cases h

end BenchClient

namespace Conversing

variable {hash : Str → Nat} {client : Nat} {commands : List Str} {x y : Conversation}
  {os o : List Out}

theorem start (numThreads : Nat) {d : Dispatcher} (hd : d.storage.Values Clean) :
    Conversing client commands (.begin numThreads d commands) [] := by
  have hs := Server.sound_start numThreads d
  have hblank : (Server.start numThreads d).link client = .blank := hs.blank client (Nat.zero_le _)
  refine ⟨Server.tidy_start numThreads hd,fun c p hp => ?_,rfl,fun _ => ⟨?_,rfl⟩⟩
  · have hc : ((Server.start numThreads d).link c).phase = some p := hp
    rw [hs.blank c (Nat.zero_le c)] at hc
    cases hc
  · refine .ready (.inl rfl) ?_ rfl
    refine ⟨?_,?_,rfl,rfl,?_,?_⟩
    all_goals simp only [Conversation.begin, hblank]
    · rfl
    · exact List.not_mem_nil
    · rfl
    · rfl

theorem server_step {e : Event} (hs : ∀ line ∈ commands, Sendable line)
    (h : Conversing client commands x os) (hg : x.server.FreshFd e)
    (hstep : (conversation hash client).step x (.server e) = some (y, o)) :
    Conversing client commands y (os ++ o) := by
  simp only [conversation, Option.bind_eq_some_iff, Prod.exists] at hstep
  obtain ⟨t,ps,hserver,hcarry⟩ := hstep
  have hp := Server.step_projects h.tidy.sound hserver
  have hroute : ∀ z ∈ ps, ∀ d k, z.route = some (d, k) → k = d :=
    fun z hz d k hr => h.routed.outs h.tidy.sound hp hz hr
  obtain ⟨hfrom,hto⟩ := routed_bytes client hroute
  simp only [Conversation.carry, hfrom, hto] at hcarry
  split at hcarry
  · rename_i hgot
    cases hcarry
    refine ⟨h.tidy.step hserver,h.routed.step h.tidy.sound hp hg,h.commands,fun hshort => ?_⟩
    rw [notes_append] at hshort ⊢
    obtain ⟨htalk,hcount⟩ := h.talk fun r hr =>
      hshort r (by simp [responses_append, hr])
    refine ⟨?_,hcount⟩
    rcases hp.cases client with ⟨hlink,-,hnone⟩ | ⟨-,-,a,ha,-⟩
    · rw [hnone, List.append_nil, hlink]
      simpa [receivedBytes, sentBytes] using htalk
    · exact htalk.link ha hgot (h.commands ▸ hs)
  · cases hcarry

theorem step {e : TalkEvent} (hs : ∀ line ∈ commands, Sendable line)
    (h : Conversing client commands x os) (hg : x.Smooth e)
    (hstep : (conversation hash client).step x e = some (y, o)) :
    Conversing client commands y (os ++ o) := by
  cases e with
  | server e => exact h.server_step hs hg hstep
  | start =>
    obtain ⟨hnext,rfl⟩ := Machine.quiet_some hstep
    obtain ⟨b,hb,rfl⟩ := Option.map_eq_some_iff.mp hnext
    rw [List.append_nil]
    refine ⟨h.tidy,h.routed,?_,fun hshort => ?_⟩
    · exact (BenchClient.start_keeps hb).1.trans h.commands
    · obtain ⟨htalk,hcount⟩ := h.talk hshort
      exact ⟨htalk.start hb,(BenchClient.start_keeps hb).2.mpr hcount⟩
  | send count =>
    obtain ⟨hnext,rfl⟩ := Machine.quiet_some hstep
    obtain ⟨⟨b,bytes⟩,hb,rfl⟩ := Option.map_eq_some_iff.mp hnext
    rw [List.append_nil]
    refine ⟨h.tidy,h.routed,?_,fun hshort => ?_⟩
    · exact (BenchClient.send_keeps hb).1.trans h.commands
    · obtain ⟨htalk,hcount⟩ := h.talk hshort
      exact ⟨htalk.send hb,(BenchClient.send_keeps hb).2.mpr hcount⟩
  | recv =>
    obtain ⟨hnext,rfl⟩ := Machine.quiet_some hstep
    rw [List.append_nil]
    cases hpipe : x.toClient with
    | nil => simp [Conversation.recv, hpipe] at hnext
    | cons byte rest =>
      simp only [Conversation.recv, hpipe, Option.map_eq_some_iff] at hnext
      obtain ⟨b,hb,rfl⟩ := hnext
      refine ⟨h.tidy,h.routed,(BenchClient.recv_keeps hb).trans h.commands,fun hshort => ?_⟩
      obtain ⟨htalk,hcount⟩ := h.talk hshort
      rw [hpipe] at htalk
      obtain ⟨hnext,hcounted⟩ := htalk.recv hb fun response hr =>
        ⟨responses_oneLine h.tidy hr,hshort response hr⟩
      exact ⟨hnext,hcounted hcount⟩
  | fail => cases hg

end Conversing

theorem Talk.settled {b : BenchClient} {toServer toClient : Str} {v : Link} {ns : List Note}
    (h : Talk b toServer toClient v ns) :
    dispatched ns <+: b.commands.map (fun line => parseCommand (stripCr line)) ∧
      b.replies <+: responses ns ∧ (responses ns).length ≤ b.replies.length + 1 := by
  have hasked (n : Nat) : b.asked n <+: b.commands.map (fun line => parseCommand (stripCr line)) :=
    (List.take_prefix n b.commands).map _
  cases h with
  | answered buffer response hstage hlink =>
    rw [hlink.asked, hlink.answers]
    exact ⟨hasked _,List.prefix_append _ _,by simp⟩
  | ready _ hlink | sending _ _ _ _ _ hlink | unread _ _ _ hlink | waiting _ _ _ hlink =>
    rw [hlink.asked, hlink.answers]
    exact ⟨hasked _,List.prefix_rfl,Nat.le_succ _⟩

theorem lockstep_client_answered (hash : Str → Nat) (maxKeys numThreads client : Nat)
    (clock : Nat → Readings) (file : Option Str) (aofWriter : Option AOFWriter) (startTime : Int)
    (commands : List Str) {es : List TalkEvent} {x : Conversation} {os : List Out}
    (h : (conversation hash client).Run Conversation.Smooth (.begin numThreads
      (.create (replay hash clock file (.create maxKeys)).storage aofWriter startTime) commands)
      es x os)
    (hs : ∀ line ∈ commands, Sendable line)
    (hshort : ∀ response ∈ responses (notes client os), response.length < recvBufSize) :
    let xs := exchanges (notes client os)
    xs.map Prod.fst <+: commands.map (fun line => parseCommand (stripCr line)) ∧
      x.client.replies <+: xs.map Prod.snd ∧ xs.length ≤ x.client.replies.length + 1 ∧
      x.client.replies.length = x.client.request := by
  intro xs
  have hvalues := replay_values hash clock file (ShardedStorage.Values.create maxKeys)
  have hall := h.invariant (Conversing client commands)
    (.start numThreads (d := .create _ aofWriter startTime) hvalues)
    (fun _ _ _ _ _ hc hg hstep => hc.step hs hg hstep)
  obtain ⟨htalk,hcount⟩ := hall.talk hshort
  obtain ⟨hasked,hreplies,hlength⟩ := htalk.settled
  obtain ⟨hfst,hsnd⟩ := exchanges_parts (notes client os)
  rw [hall.commands] at hasked
  refine ⟨hfst ▸ hasked,hsnd ▸ hreplies,?_,hcount⟩
  rw [← hsnd, List.length_map] at hlength
  exact hlength

theorem benchCommand_sendable (read : Bool) (keyId : Nat) {value : Str} (h : '\n' ∉ value) :
    Sendable (benchCommand read keyId value) := by
  have hkey : '\n' ∉ stdToString keyId := stdToString_clean keyId
  refine ⟨?_,fun hs => ?_⟩
  · cases read <;> simp [benchCommand, hkey, h]
  · rw [stripCr_nil] at hs
    cases read <;> simp [benchCommand] at hs

def benchRequests : List Str := [benchCommand false 7 ['v'], benchCommand true 7 []]

def benchTalk : List TalkEvent :=
  [.server (.accept 5), .start, .send 6, .server (.ready 5 false true false), .server .loop,
    .server (.recv (.bytes "SET ke".toList)), .server .loop, .server .loop, .server .loop,
    .server .loop, .send 6, .server (.ready 5 false true false), .server .loop,
    .server (.recv (.bytes "y:7 v\n".toList)), .server .loop, .server .loop, .server .loop,
    .server (.take 0), .server (.dispatch 0 ⟨0, 0⟩), .server (.send 0 (.bytes 2)), .recv,
    .server (.send 0 (.bytes 2)), .recv, .recv, .recv, .start, .send 10, .server .loop,
    .server .loop, .server (.clear 0), .server (.ready 5 false true false), .server .loop,
    .server (.recv (.bytes "GET key:7\n".toList)), .server .loop, .server .loop, .server .loop,
    .server (.take 0), .server (.dispatch 0 ⟨0, 0⟩), .server (.send 0 .again), .server (.queue 0),
    .server .loop, .server .loop, .server (.clear 0), .server (.ready 5 false false true),
    .server (.flush (.bytes 3)), .recv, .recv]

theorem bench_requests_answered :
    ∃ x os, (conversation (fun _ => 0) 0).Run Conversation.Smooth (.begin 1
        (.create (replay (fun _ => 0) (fun _ => ⟨0, 0⟩) none (.create 48)).storage none 0)
        benchRequests) benchTalk x os ∧
      (let xs := exchanges (notes 0 os);
        xs.map Prod.fst <+: benchRequests.map (fun line => parseCommand (stripCr line)) ∧
        x.client.replies <+: xs.map Prod.snd ∧ xs.length ≤ x.client.replies.length + 1 ∧
        x.client.replies.length = x.client.request) ∧
      x.client.replies = ["+OK\n".toList] ∧ x.client.stage = .receiving "$v".toList := by
  have hs : ∀ line ∈ benchRequests, Sendable line := by
    simp only [benchRequests, List.forall_mem_cons]
    exact ⟨benchCommand_sendable _ _ (by decide),benchCommand_sendable _ _ (by decide),by simp⟩
  exact ⟨_,_,Machine.run_of_exec (by decide +kernel),
    lockstep_client_answered _ _ _ _ _ _ _ _ _ (Machine.run_of_exec (by decide +kernel)) hs
      (by decide +kernel),by decide +kernel,by decide +kernel⟩

end CacheForge
