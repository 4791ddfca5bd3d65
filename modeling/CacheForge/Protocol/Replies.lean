import CacheForge.Protocol.Dispatcher
import CacheForge.Protocol.Parser
import CacheForge.Storage.Lookup

namespace CacheForge

def nilText : Str := "nil".toList

def getReply : Option Str → Str
  | none => nilResponse
  | some v => valueResponse v

theorem valueResponse_inj {v w : Str} : valueResponse v = valueResponse w ↔ v = w := by
  simp [valueResponse]

theorem getReply_value (found : Option Str) :
    getReply found = valueResponse (found.getD nilText) := by
  cases found <;> rfl

theorem getReply_nil (found : Option Str) :
    getReply found = nilResponse ↔ found = none ∨ found = some nilText := by
  have hnil : nilResponse = valueResponse nilText := rfl
  rw [getReply_value, hnil, valueResponse_inj]
  cases found <;> simp

theorem getReply_eq (found found' : Option Str) :
    getReply found = getReply found' ↔ found = found' ∨
      (found = none ∧ found' = some nilText) ∨ (found = some nilText ∧ found' = none) := by
  rw [getReply_value, getReply_value, valueResponse_inj]
  cases found <;> cases found' <;> simp [eq_comm]

section

variable (hash : Str → Nat)

def ShardedStorage.found (now : Int) (k : Str) (st : ShardedStorage) : Option Str :=
  (st.get hash now k).1

theorem found_live (now : Int) (k : Str) (st : ShardedStorage) :
    st.found hash now k = (live now (st.lookup hash k)).map Prod.fst :=
  st.get_result hash now k

theorem dispatch_get (r : Readings) (k : Str) (rest : List Str) (d : Dispatcher) :
    (d.dispatch hash r ⟨.get, k :: rest⟩).1 = getReply (d.storage.found hash r.now k) := by
  simp only [Dispatcher.dispatch, Dispatcher.dispatchGet, ShardedStorage.found]
  split <;> rename_i h <;> rw [h] <;> rfl

inductive ReplyOf (r : Readings) (d : Dispatcher) : Str × Dispatcher → Prop
  | pong (d' : Dispatcher) : ReplyOf r d (pongResponse, d')
  | ok (d' : Dispatcher) : ReplyOf r d (okResponse, d')
  | found (k : Str) (d' : Dispatcher) : ReplyOf r d (getReply (d.storage.found hash r.now k), d')
  | number (n : Int) (d' : Dispatcher) : ReplyOf r d (integerResponse n, d')
  | stats (d' : Dispatcher) : ReplyOf r d (valueResponse (d'.statsText r.now), d')
  | refused (message : String) (hm : '\n' ∉ message.toList) :
      ReplyOf r d (errorResponse message, { d with totalRequests := d.totalRequests + 1 })

theorem dispatch_reply (r : Readings) (d : Dispatcher) (cmd : Command) :
    ReplyOf hash r d (d.dispatch hash r cmd) := by
  obtain ⟨type,args⟩ := cmd
  cases type with
  | ping => exact .pong _
  | stats => exact .stats _
  | unknown => exact .refused _ (by decide)
  | set =>
    rcases args with _ | ⟨k,_ | ⟨v,rest⟩⟩
    · exact .refused _ (by decide)
    · exact .refused _ (by decide)
    · exact .ok _
  | get =>
    rcases args with _ | ⟨k,rest⟩
    · exact .refused _ (by decide)
    · have h : ReplyOf hash r d (_, (d.dispatch hash r ⟨.get, k :: rest⟩).2) := .found k _
      rwa [← dispatch_get hash r k rest d] at h
  | del =>
    rcases args with _ | ⟨k,rest⟩
    · exact .refused _ (by decide)
    · exact .number _ _
  | expire =>
    rcases args with _ | ⟨k,_ | ⟨a,rest⟩⟩
    · exact .refused _ (by decide)
    · exact .refused _ (by decide)
    · simp only [Dispatcher.dispatch, Dispatcher.dispatchExpire]
      cases stoll a with
      | none => exact .refused _ (by decide)
      | some n => exact .number _ _
  | ttl =>
    rcases args with _ | ⟨k,rest⟩
    · exact .refused _ (by decide)
    · exact .number _ _

theorem get_replies_truthful_iff (d d' : Dispatcher) (r r' : Readings) (k : Str)
    (rest rest' : List Str) :
    let reply := (d.dispatch hash r ⟨.get, k :: rest⟩).1
    let reply' := (d'.dispatch hash r' ⟨.get, k :: rest'⟩).1
    let found := d.storage.found hash r.now k
    let found' := d'.storage.found hash r'.now k
    ((reply = nilResponse ↔ live r.now (d.storage.lookup hash k) = none) ↔ found ≠ some nilText) ∧
    ((found ≠ found' → reply ≠ reply') ↔
      ¬(found = none ∧ found' = some nilText) ∧ ¬(found = some nilText ∧ found' = none)) := by
  have hlive : live r.now (d.storage.lookup hash k) = none ↔
      d.storage.found hash r.now k = none := by
    rw [found_live, Option.map_eq_none_iff]
  simp only [dispatch_get, hlive, getReply_nil, getReply_eq, ne_eq]
  constructor
  · cases d.storage.found hash r.now k <;> simp
  · cases d.storage.found hash r.now k <;> cases d'.storage.found hash r'.now k <;> simp

end

def nilStored : Dispatcher :=
  ((Dispatcher.fresh 48 0).dispatch (fun _ => 0) ⟨0, 0⟩ (parseCommand "SET k nil".toList)).2

theorem stored_nil_reads_absent :
    live 0 (nilStored.storage.lookup (fun _ => 0) ['k']) = some (nilText, none) ∧
      (nilStored.dispatch (fun _ => 0) ⟨0, 0⟩ (parseCommand "GET k".toList)).1 = nilResponse ∧
      ((Dispatcher.fresh 48 0).dispatch (fun _ => 0) ⟨0, 0⟩ (parseCommand "GET k".toList)).1 =
        nilResponse := by
  decide +kernel

end CacheForge
