import Kirakira.Lib.Dict
import Kirakira.Lib.Framing
import Kirakira.Lib.Transition
import Mathlib.Logic.Function.Basic

/-!
# The Host Bridge

`plugins/host_execution/bridge/transport.py`: a channel sends requests over one connection at a
time to a server that runs a handler for each, and every call waits for its own reply. Calls are
numbered over all connections of the channel.

The model is one channel and one server under every interleaving of their tasks, over lines of
bytes that arrive in pieces of any size. A move is what a task does between two suspensions; a
call may be cancelled, and its deadline may pass, wherever it is suspended, and a connection may
be lost at any time.

* A message is its serialized bytes. What Protobuf and the handlers make of them is any.
* `Connection.started` and `Connection.answers` record which handlers were started and which
  replies were made, and a line records what was written and read. No move reads them.
* The text of an `OSError` is any, and so is whether a write raises one.

## Main results

* `calls_get_own_answers` — on every connection the frames that are read are those that were
  written, in order; a reply that a call gets was made for its very request; a handler is started
  once at most for a request, and a request is written once at most; a call that has ended keeps
  its outcome; the calls in flight on a connection that is lost fail; and `pending` has no entry
  of a call that has ended.
-/

namespace Kirakira.Bridge

open Framing (Format Frame Line)

/-! ### Frames -/

/-- `grpc.StatusCode`. -/
inductive StatusCode where
  | ok | cancelled | unknown | invalidArgument | deadlineExceeded | notFound | alreadyExists
  | permissionDenied | resourceExhausted | failedPrecondition | aborted | outOfRange
  | unimplemented | internal | unavailable | dataLoss | unauthenticated
  deriving DecidableEq, Repr

/-- `code.value[0]`. -/
def StatusCode.value : StatusCode → ℕ
  | .ok => 0
  | .cancelled => 1
  | .unknown => 2
  | .invalidArgument => 3
  | .deadlineExceeded => 4
  | .notFound => 5
  | .alreadyExists => 6
  | .permissionDenied => 7
  | .resourceExhausted => 8
  | .failedPrecondition => 9
  | .aborted => 10
  | .outOfRange => 11
  | .unimplemented => 12
  | .internal => 13
  | .unavailable => 14
  | .dataLoss => 15
  | .unauthenticated => 16

/-- `code in _CODES`. -/
def isCode (n : ℕ) : Bool :=
  n ≤ 16

/-- `RpcError`. -/
structure RpcError where
  code : StatusCode
  detail : String
  deriving DecidableEq, Repr

/-- What can be raised: an `RpcError`, or an exception of another type, such as `struct.error`. -/
inductive Raised where
  | rpc (error : RpcError)
  | other
  deriving DecidableEq, Repr

/-- `_HELLO`, `_REQUEST`, `_REPLY`, `_CANCEL`. -/
inductive Kind where
  | hello | request | reply | cancel
  deriving DecidableEq, Repr

/-- The number of a kind. -/
def Kind.number : Kind → ℕ
  | .hello => 0
  | .request => 1
  | .reply => 2
  | .cancel => 3

/-- The kind with a number. -/
def Kind.ofNumber : ℕ → Option Kind
  | 0 => some .hello
  | 1 => some .request
  | 2 => some .reply
  | 3 => some .cancel
  | _ => none

/-- What `_HEADER` packs. -/
structure Header where
  size : ℕ
  kind : Kind
  code : ℕ
  callId : ℕ
  deriving DecidableEq, Repr

/-- `_MAX_BYTES`. -/
def maxBytes : ℕ := 16 * 1024 * 1024

/-- `_MAX_CALLS`. -/
def maxCalls : ℕ := 128

/-- `_HEADER.pack`, in the layout `!IBBQ`. -/
def Header.pack (h : Header) : List UInt8 :=
  Framing.toBytes 4 h.size ++ (Framing.toBytes 1 h.kind.number ++
    (Framing.toBytes 1 h.code ++ Framing.toBytes 8 h.callId))

/-- What `_HEADER` can pack, of a size that is accepted. -/
def Header.Packs (h : Header) : Prop :=
  h.size ≤ maxBytes ∧ h.code < Nat.pow 256 1 ∧ h.callId < Nat.pow 256 8

/-- `_header`. -/
def header (data : List UInt8) : Except RpcError Header :=
  let size := Framing.ofBytes (data.take 4)
  match Kind.ofNumber (Framing.ofBytes ((data.drop 4).take 1)) with
  | some kind =>
      if size ≤ maxBytes then
        .ok ⟨size, kind, Framing.ofBytes ((data.drop 5).take 1), Framing.ofBytes (data.drop 6)⟩
      else .error ⟨.invalidArgument, "Host Bridge 帧无效"⟩
  | none => .error ⟨.invalidArgument, "Host Bridge 帧无效"⟩

theorem length_pack (h : Header) : h.pack.length = 14 := by
  simp only [Header.pack, List.length_append, Framing.length_toBytes]

theorem ofNumber_number (kind : Kind) : Kind.ofNumber kind.number = some kind := by
  cases kind <;> rfl

theorem number_lt (kind : Kind) : kind.number < Nat.pow 256 1 := by
  cases kind <;> decide

theorem maxBytes_lt : maxBytes < Nat.pow 256 4 := by
  decide

/-- **A header that was packed is read back.** -/
theorem header_pack (h : Header) (hp : h.Packs) : header h.pack = .ok h := by
  obtain ⟨hsize, hcode, hid⟩ := hp
  have h4 : h.pack.take 4 = Framing.toBytes 4 h.size :=
    List.take_left' (Framing.length_toBytes ..)
  have hd4 : h.pack.drop 4 = Framing.toBytes 1 h.kind.number ++
      (Framing.toBytes 1 h.code ++ Framing.toBytes 8 h.callId) :=
    List.drop_left' (Framing.length_toBytes ..)
  have hd5 : h.pack.drop 5 = Framing.toBytes 1 h.code ++ Framing.toBytes 8 h.callId := by
    rw [← List.drop_drop (i := 1) (j := 4), hd4]
    exact List.drop_left' (Framing.length_toBytes ..)
  have hd6 : h.pack.drop 6 = Framing.toBytes 8 h.callId := by
    rw [← List.drop_drop (i := 1) (j := 5), hd5]
    exact List.drop_left' (Framing.length_toBytes ..)
  have hkind : Framing.ofBytes ((h.pack.drop 4).take 1) = h.kind.number := by
    rw [hd4, List.take_left' (Framing.length_toBytes ..)]
    exact Framing.ofBytes_toBytes (number_lt h.kind)
  have hcode' : Framing.ofBytes ((h.pack.drop 5).take 1) = h.code := by
    rw [hd5, List.take_left' (Framing.length_toBytes ..)]
    exact Framing.ofBytes_toBytes hcode
  have hsize' : Framing.ofBytes (h.pack.take 4) = h.size := by
    rw [h4]
    exact Framing.ofBytes_toBytes (hsize.trans_lt maxBytes_lt)
  have hid' : Framing.ofBytes (h.pack.drop 6) = h.callId := by
    rw [hd6]
    exact Framing.ofBytes_toBytes hid
  simp only [header, hkind, hcode', hsize', hid', ofNumber_number, if_pos hsize]

theorem headerWidth_pos : 0 < 14 := by
  decide

/-- The format of the frames. -/
def format : Format Header RpcError where
  width := 14
  encode := Header.pack
  decode := header
  size := Header.size
  Valid := Header.Packs
  width_pos := headerWidth_pos
  length_encode := length_pack
  decode_encode := header_pack

theorem size_eq (kind : Kind) (code callId : ℕ) (payload : List UInt8) :
    format.size ⟨payload.length, kind, code, callId⟩ = payload.length :=
  rfl

theorem packs_of {kind : Kind} {code callId : ℕ} {payload : List UInt8}
    (hsize : payload.length ≤ maxBytes)
    (h : code < Nat.pow 256 1 ∧ callId < Nat.pow 256 8) :
    format.Valid ⟨payload.length, kind, code, callId⟩ :=
  ⟨hsize, h⟩

/-- `_frame`. -/
def frame (kind : Kind) (code callId : ℕ) (payload : List UInt8) :
    Except Raised (Frame format) :=
  if hsize : payload.length ≤ maxBytes then
    if h : code < Nat.pow 256 1 ∧ callId < Nat.pow 256 8 then
      .ok ⟨⟨payload.length, kind, code, callId⟩, payload, size_eq kind code callId payload,
        packs_of hsize h⟩
    else .error .other
  else .error (.rpc ⟨.resourceExhausted, "Host Bridge 消息超过 16 MiB"⟩)

theorem raw_of_frame {kind : Kind} {code callId : ℕ} {payload : List UInt8} {f : Frame format}
    (h : frame kind code callId payload = .ok f) :
    f.raw = (⟨payload.length, kind, code, callId⟩, payload) := by
  unfold frame at h
  split at h
  · split at h
    · exact (Except.ok.inj h) ▸ rfl
    · cases h
  · cases h

/-! ### Methods -/

/-- `_METHODS`, in their order. -/
inductive Method where
  | inspect | claimBoot | probe | openManager | heartbeat | exec | writeStdin | stop
  | terminateOwner | shutdownManager | activeExecutions | fileTool | skillRequirements
  | executionStates
  deriving DecidableEq, Repr

/-- `_METHODS`. -/
def methods : List Method :=
  [.inspect, .claimBoot, .probe, .openManager, .heartbeat, .exec, .writeStdin, .stop,
    .terminateOwner, .shutdownManager, .activeExecutions, .fileTool, .skillRequirements,
    .executionStates]

/-- `_BY_NAME`: the number of a method, from one. -/
def Method.index (m : Method) : ℕ :=
  methods.idxOf m + 1

/-- `method in _BUSINESS_METHODS`. -/
def Method.business : Method → Bool
  | .exec | .writeStdin | .fileTool => true
  | _ => false

/-- `1 <= code <= len(_METHODS)`. -/
def isMethod (code : ℕ) : Bool :=
  1 ≤ code && code ≤ methods.length

/-- `_METHODS[code - 1].name in _BUSINESS_METHODS`. -/
def isBusiness (code : ℕ) : Bool :=
  (methods[code - 1]?).any Method.business

/-- The bytes of a text. -/
def utf8 (text : String) : List UInt8 :=
  text.toUTF8.data.toList

/-! ### The server -/

/-- A request, as the server reads it. -/
structure Request where
  id : ℕ
  code : ℕ
  payload : List UInt8
  deriving DecidableEq, Repr

/-- A reply that the server makes, with the request that it is for. -/
structure Answer where
  request : Request
  status : ℕ
  response : List UInt8
  deriving DecidableEq, Repr

/-- Where a `_dispatch` task is. -/
inductive TaskPhase where
  /-- It has not begun, and may have been cancelled. -/
  | created (cancelled : Bool)
  /-- In the handler. -/
  | running
  /-- It has replied, or will not. -/
  | ended
  deriving DecidableEq

/-- A `_dispatch` task. -/
structure Task where
  code : ℕ
  payload : List UInt8
  phase : TaskPhase
  deriving DecidableEq

/-- Where `_serve` is: at the credentials, at the requests, or past both. -/
inductive Serving where
  | greeting | serving | ended
  deriving DecidableEq

/-- A connection, with both its ends. -/
structure Connection where
  /-- `pending`: the call that waits for a number. -/
  pending : Dict ℕ ℕ
  /-- Whether `_receive` runs. -/
  receiving : Bool
  toServer : Line format
  toClient : Line format
  serving : Serving
  active : Dict ℕ Task
  /-- The requests whose handlers were started. -/
  started : List Request
  answers : List Answer

namespace Connection

/-- A connection on which nothing was written. -/
def fresh : Connection where
  pending := .empty
  receiving := true
  toServer := .fresh format
  toClient := .fresh format
  serving := .greeting
  active := .empty
  started := []
  answers := []

/-- `task.cancel()`; what a handler makes of it is any. -/
def cancelTask (task : Task) : Task :=
  match task.phase with
  | .created _ => { task with phase := .created true }
  | .running | .ended => task

/-- The loop of `_serve` is left: all tasks are cancelled. -/
def endServing (conn : Connection) : Connection :=
  { conn with serving := .ended, active := conn.active.mapValues fun _ => cancelTask }

/-- A frame is refused: the writer is closed. -/
def reject (conn : Connection) : Connection :=
  { conn.endServing with toClient := conn.toClient.close }

/-- A reply is made. -/
def reply (conn : Connection) (request : Request) (status : ℕ) (response : List UInt8)
    (f : Frame format) : Connection :=
  { conn with
    toClient := conn.toClient.write f
    answers := conn.answers ++ [⟨request, status, response⟩] }

/-- The first frame, with the credentials. -/
def greet (conn : Connection) (h : Header) (payload : List UInt8) : Connection :=
  if h.kind = .hello ∧ h.code = 0 ∧ h.callId = 0 ∧
      (String.fromUTF8? ⟨payload.toArray⟩).isSome then
    { conn with serving := .serving }
  else conn.reject

/-- A later frame. -/
def serve (conn : Connection) (h : Header) (payload : List UInt8) : Connection :=
  if h.kind = .cancel ∧ h.code = 0 ∧ payload = [] then
    match conn.active.get? h.callId with
    | some task => { conn with active := conn.active.set h.callId (cancelTask task) }
    | none => conn
  else if ¬(h.kind = .request ∧ isMethod h.code ∧ h.callId ≠ 0 ∧
      conn.active.get? h.callId = none) then
    conn.reject
  else if maxCalls ≤ conn.active.entries.length ∧ isBusiness h.code then
    let text := utf8 "too many active calls"
    match frame .reply StatusCode.resourceExhausted.value h.callId text with
    | .ok f =>
        conn.reply ⟨h.callId, h.code, payload⟩ StatusCode.resourceExhausted.value text f
    | .error _ => conn.reject
  else { conn with active := conn.active.set h.callId ⟨h.code, payload, .created false⟩ }

/-- `_read` in `_serve`. -/
def read (conn : Connection) : Option Connection :=
  conn.toServer.readPayload.bind fun ((h, payload), line) =>
    let conn := { conn with toServer := line }
    match conn.serving with
    | .greeting => some (conn.greet h payload)
    | .serving => some (conn.serve h payload)
    | .ended => none

end Connection

/-- What comes of a handler. -/
inductive HandlerEnd where
  | returned (response : List UInt8)
  | rpcError (code : StatusCode) (detail : List UInt8)
  | exception (text : List UInt8)
  /-- It is cancelled, or its text has no encoding. -/
  | silent

/-- What `_dispatch` replies to a request with a number. -/
def dispatchReply (id : ℕ) : HandlerEnd → Option (ℕ × List UInt8)
  | .returned response =>
      match frame .reply StatusCode.ok.value id response with
      | .ok _ => some (StatusCode.ok.value, response)
      | .error (.rpc error) => some (error.code.value, utf8 error.detail)
      -- the number does not fit, and will not fit in the frame of the error
      | .error .other => none
  | .rpcError code detail => some (code.value, detail)
  | .exception text => some (StatusCode.internal.value, text)
  | .silent => none

namespace Connection

/-- A task ends, with its reply where a frame can be made of it. -/
def answer (conn : Connection) (id : ℕ) (task : Task) (result : HandlerEnd) : Connection :=
  let conn := { conn with active := conn.active.set id { task with phase := .ended } }
  match dispatchReply id result with
  | none => conn
  | some (status, response) =>
      match frame .reply status id response with
      | .ok f => conn.reply ⟨id, task.code, task.payload⟩ status response f
      | .error _ => conn

/-- A task begins: its request is decoded, and its handler started. -/
def dispatch (conn : Connection) (id : ℕ) (task : Task) (decodes : Bool) : Connection :=
  if decodes then
    { conn with
      active := conn.active.set id { task with phase := .running }
      started := conn.started ++ [⟨id, task.code, task.payload⟩] }
  else
    conn.answer id task (.rpcError .invalidArgument (utf8 "Host Bridge Protobuf 消息无效"))

end Connection

/-- What can happen at the server of a connection. -/
inductive ServerMove where
  | arrive (n : ℕ)
  | header
  | read
  /-- A task begins; Protobuf can decode its request or not. -/
  | dispatch (id : ℕ) (decodes : Bool)
  | answer (id : ℕ) (result : HandlerEnd)
  /-- The callback of a task that is done. -/
  | retire (id : ℕ)
  /-- The connection is lost for the server, or `_serve` is cancelled. -/
  | ends
  /-- The writer is closed: by `_serve`, `_dispatch` or `stop`. -/
  | closes

/-- What a move of the server does. -/
def Connection.apply (conn : Connection) : ServerMove → Option Connection
  | .arrive n => some { conn with toServer := conn.toServer.arrive n }
  | .header =>
      if conn.serving = .ended then none
      else conn.toServer.readHeader.map fun
        | .ok line => { conn with toServer := line }
        | .error _ => conn.reject
  | .read => conn.read
  | .dispatch id decodes => (conn.active.get? id).bind fun task =>
      match task.phase with
      | .created false => some (conn.dispatch id task decodes)
      | .created true =>
          some { conn with active := conn.active.set id { task with phase := .ended } }
      | .running | .ended => none
  | .answer id result => (conn.active.get? id).bind fun task =>
      match task.phase with
      | .running => some (conn.answer id task result)
      | .created _ | .ended => none
  | .retire id => (conn.active.get? id).bind fun task =>
      match task.phase with
      | .ended => some { conn with active := conn.active.erase id }
      | .created _ | .running => none
  | .ends => some conn.endServing
  | .closes => some { conn with toClient := conn.toClient.close }

/-! ### The channel -/

/-- What a call waits for. -/
inductive Future where
  | waiting
  | result (status : ℕ) (response : List UInt8)
  | failed (error : RpcError)
  | cancelled
  deriving DecidableEq

/-- What comes of a call: what it makes of a reply, or what it raises. -/
inductive Outcome where
  | reply (status : ℕ) (response : List UInt8)
  | raised (exception : Raised)
  | cancelled
  deriving DecidableEq

/-- What a call is told while it is suspended. -/
inductive Interrupt where
  | timeout | cancel
  deriving DecidableEq

/-- What comes of a call that was interrupted. -/
def Interrupt.outcome : Interrupt → Outcome
  | .timeout => .raised (.rpc ⟨.deadlineExceeded, "Host Bridge 请求超时，操作状态可能未知"⟩)
  | .cancel => .cancelled

/-- Where a call is suspended. -/
inductive Phase where
  /-- At the semaphore. -/
  | slot
  /-- At the lock of `_connect`. -/
  | lock
  /-- At `open_unix_connection`, with the lock. -/
  | opening
  /-- At `drain`. -/
  | drain
  /-- At the future. -/
  | reply
  | ended (outcome : Outcome)
  deriving DecidableEq

/-- A `call`. -/
structure Call where
  method : Method
  /-- `request.SerializeToString()`. -/
  request : List UInt8
  /-- Whether there is a `timeout`. -/
  timed : Bool
  phase : Phase
  connection : Option ℕ
  callId : ℕ
  future : Future
  interrupted : Option Interrupt
  deriving DecidableEq

namespace Call

/-- A call that has been made. -/
def made (method : Method) (request : List UInt8) (timed : Bool) : Call where
  method := method
  request := request
  timed := timed
  phase := if method.business then .slot else .lock
  connection := none
  callId := 0
  future := .waiting
  interrupted := none

/-- The request that a call sends. -/
def asRequest (call : Call) : Request :=
  ⟨call.callId, call.method.index, call.request⟩

/-- Whether a call has ended. -/
def isEnded (call : Call) : Bool :=
  match call.phase with
  | .ended _ => true
  | _ => false

/-- Whether a call has sent its request and has not ended. -/
def inFlight (call : Call) : Bool :=
  match call.phase with
  | .drain | .reply => true
  | _ => false

/-- Whether a call has a slot of the semaphore. -/
def hasSlot (call : Call) : Bool :=
  call.method.business && call.phase ≠ .slot

/-- `future.set_exception`, unless it is done. -/
def fail (call : Call) (error : RpcError) : Call :=
  if call.future = .waiting then { call with future := .failed error } else call

/-- `future.set_result`, unless it is done. -/
def resolve (call : Call) (status : ℕ) (response : List UInt8) : Call :=
  if call.future = .waiting then { call with future := .result status response } else call

/-- `task.cancel()`, by a caller or by the deadline: a future that is awaited is cancelled. -/
def interrupt (call : Call) (kind : Interrupt) : Call :=
  { call with
    interrupted := some (if call.interrupted = some .cancel then .cancel else kind)
    future := if call.phase = .reply ∧ call.future = .waiting then .cancelled else call.future }

end Call

/-- A channel, its calls, and its connections in their order. -/
structure State where
  token : String
  calls : ℕ → Option Call
  connections : ℕ → Connection
  /-- How many connections were opened. -/
  opened : ℕ
  /-- `_connection`. -/
  current : Option ℕ
  /-- The call that has the lock while it is suspended. -/
  lock : Option ℕ
  /-- The free slots of the semaphore. -/
  slots : ℕ
  nextId : ℕ
  closed : Bool

/-- `Channel(path, token)`. -/
def State.initial (token : String) : State where
  token := token
  calls := fun _ => none
  connections := fun _ => .fresh
  opened := 0
  current := none
  lock := none
  slots := maxCalls
  nextId := 0
  closed := false

namespace State

/-- A change of one call. -/
def setCall (s : State) (i : ℕ) (call : Call) : State :=
  { s with calls := Function.update s.calls i (some call) }

/-- A change of one connection. -/
def setConnection (s : State) (c : ℕ) (conn : Connection) : State :=
  { s with connections := Function.update s.connections c conn }

/-- The `finally` of `call`: its number is no longer waited for. -/
def forget (s : State) (call : Call) : State :=
  match call.connection with
  | none => s
  | some c =>
      let conn := s.connections c
      s.setConnection c { conn with pending := conn.pending.erase call.callId }

/-- A call leaves the lock, where it has it. -/
def release (s : State) (i : ℕ) : Option ℕ :=
  if s.lock = some i then none else s.lock

/-- A call ends. -/
def finish (s : State) (i : ℕ) (call : Call) (outcome : Outcome) : State :=
  { (s.forget call).setCall i { call with phase := .ended outcome } with
    lock := s.release i
    slots := if call.hasSlot then s.slots + 1 else s.slots }

/-- A call has its number and its future on a connection. -/
def identify (s : State) (call : Call) (c : ℕ) : Call :=
  { call with connection := some c, callId := s.nextId + 1, future := .waiting }

/-- `connection.pending[call_id] = future`. -/
def register (s : State) (i : ℕ) (call : Call) (c : ℕ) (toServer : Line format) : State :=
  let conn := s.connections c
  { (s.setConnection c
      { conn with pending := conn.pending.set call.callId i, toServer := toServer }).setCall i
      { call with phase := .drain } with
    lock := s.release i
    nextId := call.callId }

/-- What a call does with a connection until it is suspended; a write may raise an `OSError`. -/
def send (s : State) (i : ℕ) (call : Call) (c : ℕ) (fails : Option String) : State :=
  let call := s.identify call c
  match frame .request call.method.index call.callId call.request with
  | .error exception => { s.finish i call (.raised exception) with nextId := call.callId }
  | .ok f =>
      match fails with
      | none => s.register i call c ((s.connections c).toServer.write f)
      | some text =>
          (s.register i call c (s.connections c).toServer).finish i { call with phase := .drain }
            (.raised (.rpc ⟨.unavailable, text⟩))

/-- The first frame of a connection. -/
def hello (s : State) : Except Raised (Frame format) :=
  frame .hello 0 0 (utf8 ("Bearer " ++ s.token))

/-- `_connect`, with the lock. -/
def connect (s : State) (i : ℕ) (call : Call) (fails : Option String) : State :=
  if s.closed then
    s.finish i call (.raised (.rpc ⟨.unavailable, "Host Bridge channel 已关闭"⟩))
  else
    match s.current with
    | some c => s.send i call c fails
    | none =>
        match s.hello with
        | .ok _ => { s.setCall i { call with phase := .opening } with lock := some i }
        | .error exception => s.finish i call (.raised exception)

/-- A connection is open, and the call goes on with it. -/
def attach (s : State) (i : ℕ) (call : Call) (f : Frame format) (fails : Option String) : State :=
  let conn := Connection.fresh
  { s.setConnection s.opened { conn with toServer := conn.toServer.write f } with
    opened := s.opened + 1
    current := some s.opened }.send i call s.opened fails

/-- `_cancel`; a write may raise an `OSError`. -/
def sendCancel (s : State) (call : Call) (fails : Bool) : State :=
  match call.connection with
  | none => s
  | some c =>
      let conn := s.connections c
      if call.callId = 0 ∨ conn.toServer.closed then s
      else if fails then s.setConnection c { conn with toServer := conn.toServer.close }
      else
        match frame .cancel 0 call.callId [] with
        | .ok f => s.setConnection c { conn with toServer := conn.toServer.write f }
        | .error _ => s

/-- A call goes on with its future. -/
def wake (s : State) (i : ℕ) (call : Call) : Option State :=
  match call.future with
  | .result status response => some (s.finish i call (.reply status response))
  | .failed error => some (s.finish i call (.raised (.rpc error)))
  | .waiting | .cancelled => none

/-- `_receive` ends: all that wait on the connection fail. -/
def lose (s : State) (c : ℕ) (error : RpcError) : State :=
  let conn := s.connections c
  { s.setConnection c { conn with receiving := false, toServer := conn.toServer.close } with
    current := if s.current = some c then none else s.current
    calls := fun i => (s.calls i).map fun call =>
      if conn.pending.entries.any (fun entry => entry.2 = i) then call.fail error else call }

/-- A frame is read in `_receive`. -/
def receive (s : State) (c : ℕ) (h : Header) (payload : List UInt8) : State :=
  if h.kind = .reply ∧ isCode h.code ∧ 0 < h.callId ∧ h.callId ≤ s.nextId then
    match (s.connections c).pending.get? h.callId with
    | none => s
    | some i =>
        match s.calls i with
        | none => s
        | some call => s.setCall i (call.resolve h.code payload)
  else s.lose c ⟨.internal, "Host Bridge 响应帧无效"⟩

end State

/-- What can happen between two suspensions. -/
inductive Move where
  | call (i : ℕ) (method : Method) (request : List UInt8) (timed : Bool)
  | acquire (i : ℕ)
  | connect (i : ℕ) (fails : Option String)
  | opened (i : ℕ) (fails : Option String)
  | openFails (i : ℕ) (text : String)
  | drained (i : ℕ)
  | drainFails (i : ℕ) (text : String)
  | wake (i : ℕ)
  | interrupt (i : ℕ) (kind : Interrupt)
  /-- A call that was interrupted goes on. -/
  | unwind (i : ℕ) (fails : Bool)
  | close
  /-- Bytes arrive at the channel. -/
  | arrive (c n : ℕ)
  | header (c : ℕ)
  | receive (c : ℕ)
  /-- The connection is lost for the channel. -/
  | lost (c : ℕ)
  | server (c : ℕ) (move : ServerMove)

namespace State

/-- A move of a call that is suspended somewhere and was not interrupted. -/
def resume (s : State) (i : ℕ) (phase : Phase) (f : Call → Option State) : Option State :=
  (s.calls i).bind fun call =>
    if call.phase = phase ∧ call.interrupted = none then f call else none

/-- What a move does, where it can happen. -/
def apply (s : State) : Move → Option State
  | .call i method request timed =>
      if (s.calls i).isNone then some (s.setCall i (.made method request timed)) else none
  | .acquire i => s.resume i .slot fun call =>
      if 0 < s.slots then
        some { s.setCall i { call with phase := .lock } with slots := s.slots - 1 }
      else none
  | .connect i fails => s.resume i .lock fun call =>
      if s.lock.isNone then some (s.connect i call fails) else none
  | .opened i fails => s.resume i .opening fun call =>
      match s.hello with
      | .ok f => some (s.attach i call f fails)
      | .error _ => none
  | .openFails i text => s.resume i .opening fun call =>
      some (s.finish i call (.raised (.rpc ⟨.unavailable, text⟩)))
  | .drained i => s.resume i .drain fun call =>
      some (s.setCall i { call with phase := .reply })
  | .drainFails i text => s.resume i .drain fun call =>
      some (s.finish i call (.raised (.rpc ⟨.unavailable, text⟩)))
  | .wake i => s.resume i .reply fun call => s.wake i call
  | .interrupt i kind => (s.calls i).bind fun call =>
      if call.isEnded ∨ kind = .timeout ∧ call.timed = false then none
      else some (s.setCall i (call.interrupt kind))
  | .unwind i fails => (s.calls i).bind fun call =>
      if call.isEnded then none
      else call.interrupted.map fun kind =>
        (s.sendCancel call fails).finish i call kind.outcome
  | .close =>
      if s.lock.isNone then
        let s := { s with closed := true }
        match s.current with
        | none => some s
        | some c =>
            let conn := s.connections c
            some (s.setConnection c { conn with toServer := conn.toServer.close })
      else none
  | .arrive c n =>
      if c < s.opened then
        let conn := s.connections c
        some (s.setConnection c { conn with toClient := conn.toClient.arrive n })
      else none
  | .header c =>
      let conn := s.connections c
      if c < s.opened ∧ conn.receiving then
        conn.toClient.readHeader.map fun
          | .ok line => s.setConnection c { conn with toClient := line }
          | .error error => s.lose c error
      else none
  | .receive c =>
      let conn := s.connections c
      if c < s.opened ∧ conn.receiving then
        conn.toClient.readPayload.map fun ((h, payload), line) =>
          (s.setConnection c { conn with toClient := line }).receive c h payload
      else none
  | .lost c =>
      if c < s.opened ∧ (s.connections c).receiving then
        some (s.lose c ⟨.unavailable, "Host Bridge 连接已断开，操作状态可能未知"⟩)
      else none
  | .server c move =>
      if c < s.opened then
        ((s.connections c).apply move).map fun conn => s.setConnection c conn
      else none

end State

/-- The runs of a channel and a server. -/
def bridge : Transition.System State Move where
  init s := ∃ token, s = .initial token
  step s move t := s.apply move = some t

/-! ### The invariant of a connection -/

/-- The request in a frame, where it is one. -/
def asRequest (frame : Header × List UInt8) : Option Request :=
  if frame.1.kind = .request then some ⟨frame.1.callId, frame.1.code, frame.2⟩ else none

/-- The requests among frames. -/
def requests (frames : List (Header × List UInt8)) : List Request :=
  frames.filterMap asRequest

/-- The frame of a reply. -/
def Answer.raw (a : Answer) : Header × List UInt8 :=
  (⟨a.response.length, .reply, a.status, a.request.id⟩, a.response)

/-- **The invariant of a connection**: the requests that were written on it are `Made`, and
everything at the server comes of one that was read. -/
structure Connection.Inv (conn : Connection) (Made : Request → Prop) : Prop where
  toServer : ∃ queue, conn.toServer.Holds queue
  toClient : ∃ queue, conn.toClient.Holds queue
  made : ∀ r ∈ requests conn.toServer.written, Made r
  once : ((requests conn.toServer.written).map Request.id).Nodup
  active : ∀ id task, conn.active.get? id = some task →
    ⟨id, task.code, task.payload⟩ ∈ requests conn.toServer.read
  started : ∀ r ∈ conn.started, r ∈ requests conn.toServer.read
  startedOnce : (conn.started.map Request.id).Nodup
  created : ∀ r ∈ conn.started, ∀ task, conn.active.get? r.id = some task →
    ∀ cancelled, task.phase ≠ .created cancelled
  answers : ∀ a ∈ conn.answers, a.request ∈ requests conn.toServer.read
  replies : ∀ raw ∈ conn.toClient.written, ∃ a ∈ conn.answers, raw = a.raw

section Connections

variable {conn conn' : Connection} {Made Made' : Request → Prop}

theorem Connection.Inv.requests_read (h : conn.Inv Made) :
    ∃ rest, requests conn.toServer.written = requests conn.toServer.read ++ rest := by
  obtain ⟨queue, hqueue⟩ := h.toServer
  exact ⟨_, by rw [hqueue.written, requests, List.filterMap_append]; rfl⟩

theorem Connection.Inv.made_of_read (h : conn.Inv Made) {r : Request}
    (hr : r ∈ requests conn.toServer.read) : Made r := by
  obtain ⟨rest, hrest⟩ := h.requests_read
  exact h.made r (hrest ▸ List.mem_append_left rest hr)

theorem Connection.Inv.fresh : Connection.fresh.Inv Made where
  toServer := ⟨[], Line.holds_fresh format⟩
  toClient := ⟨[], Line.holds_fresh format⟩
  made r hr := by cases hr
  once := List.nodup_nil
  active id task h := by cases h
  started r hr := by cases hr
  startedOnce := List.nodup_nil
  created r hr := by cases hr
  answers a ha := by cases ha
  replies raw hraw := by cases hraw

theorem Connection.Inv.weaken (h : conn.Inv Made) (hmade : ∀ r, Made r → Made' r) :
    conn.Inv Made' :=
  { h with made := fun r hr => hmade r (h.made r hr) }

theorem Connection.Inv.keep (h : conn.Inv Made) (hserver : ∃ queue, conn'.toServer.Holds queue)
    (hclient : ∃ queue, conn'.toClient.Holds queue)
    (hwritten : conn'.toServer.written = conn.toServer.written)
    (hread : conn'.toServer.read = conn.toServer.read)
    (hreplies : conn'.toClient.written = conn.toClient.written)
    (hactive : conn'.active = conn.active) (hstarted : conn'.started = conn.started)
    (hanswers : conn'.answers = conn.answers) : conn'.Inv Made where
  toServer := hserver
  toClient := hclient
  made := hwritten ▸ h.made
  once := hwritten ▸ h.once
  active := by rw [hactive, hread]; exact h.active
  started := by rw [hstarted, hread]; exact h.started
  startedOnce := hstarted ▸ h.startedOnce
  created := by rw [hstarted, hactive]; exact h.created
  answers := by rw [hanswers, hread]; exact h.answers
  replies := by rw [hreplies, hanswers]; exact h.replies

theorem Connection.Inv.tasks (h : conn.Inv Made) {active : Dict ℕ Task}
    (hactive : ∀ id task, active.get? id = some task →
      ⟨id, task.code, task.payload⟩ ∈ requests conn.toServer.read ∧
      (∀ r ∈ conn.started, r.id = id → ∀ cancelled, task.phase ≠ .created cancelled)) :
    ({ conn with active := active } : Connection).Inv Made :=
  { h with
    active := fun id task hget => (hactive id task hget).1
    created := fun r hr task hget => (hactive r.id task hget).2 r hr rfl }

theorem Connection.Inv.setTask (h : conn.Inv Made) {id : ℕ} {task : Task} (task' : Task)
    (hget : conn.active.get? id = some task) (hcode : task'.code = task.code)
    (hpayload : task'.payload = task.payload)
    (hphase : (∃ cancelled, task'.phase = .created cancelled) →
      ∃ cancelled, task.phase = .created cancelled) :
    ({ conn with active := conn.active.set id task' } : Connection).Inv Made := by
  refine h.tasks fun id' task₁ hget₁ => ?_
  obtain ⟨heq, rfl⟩ | ⟨-, hget₁⟩ := Dict.of_get?_set hget₁
  · obtain rfl : id' = id := heq
    refine ⟨by rw [hcode, hpayload]; exact h.active id' task hget, fun r hr hid k hk => ?_⟩
    obtain ⟨cancelled, hcancelled⟩ := hphase ⟨k, hk⟩
    exact h.created r hr task (hid ▸ hget) cancelled hcancelled
  · exact ⟨h.active id' task₁ hget₁, fun r hr hid => h.created r hr task₁ (hid ▸ hget₁)⟩

theorem Connection.Inv.eraseTask (h : conn.Inv Made) (id : ℕ) :
    ({ conn with active := conn.active.erase id } : Connection).Inv Made := by
  refine h.tasks fun id' task hget => ?_
  rw [Dict.get?_erase] at hget
  split at hget
  · cases hget
  · exact ⟨h.active id' task hget, fun r hr hid => h.created r hr task (hid ▸ hget)⟩

theorem Connection.Inv.endServing (h : conn.Inv Made) : conn.endServing.Inv Made := by
  have htasks : ({ conn with active := conn.active.mapValues fun _ => cancelTask }
      : Connection).Inv Made := by
    refine h.tasks fun id task hget => ?_
    obtain ⟨old, hold, rfl⟩ :=
      (Dict.rel_mapValues conn.active fun _ => cancelTask).get?_right hget
    have hcancel : (cancelTask old).code = old.code ∧ (cancelTask old).payload = old.payload ∧
        ∀ k, (cancelTask old).phase = .created k → ∃ k', old.phase = .created k' := by
      unfold cancelTask
      split
      · next k hk => exact ⟨rfl, rfl, fun _ _ => ⟨k, hk⟩⟩
      · exact ⟨rfl, rfl, fun k hk => ⟨k, hk⟩⟩
      · exact ⟨rfl, rfl, fun k hk => ⟨k, hk⟩⟩
    obtain ⟨hcode, hpayload, hphase⟩ := hcancel
    refine ⟨by rw [hcode, hpayload]; exact h.active id old hold, fun r hr hid k hk => ?_⟩
    obtain ⟨k', hk'⟩ := hphase k hk
    exact h.created r hr old (hid ▸ hold) k' hk'
  exact htasks.keep h.toServer h.toClient rfl rfl rfl rfl rfl rfl

theorem Connection.Inv.closeClient (h : conn.Inv Made) :
    ({ conn with toClient := conn.toClient.close } : Connection).Inv Made := by
  obtain ⟨queue, hqueue⟩ := h.toClient
  exact h.keep h.toServer ⟨queue, hqueue.close⟩ rfl rfl rfl rfl rfl rfl

theorem Connection.Inv.reject (h : conn.Inv Made) : conn.reject.Inv Made :=
  h.endServing.closeClient

theorem mem_written_write {l : Line format} {f : Frame format} {raw : Header × List UInt8}
    (h : raw ∈ (l.write f).written) : raw ∈ l.written ∨ raw = f.raw := by
  unfold Line.write at h
  split at h
  · exact .inl h
  · rcases List.mem_append.mp h with h | h
    · exact .inl h
    · exact .inr (List.mem_singleton.mp h)

/-- **A reply** is made for a request that was read. -/
theorem Connection.Inv.reply (h : conn.Inv Made) {r : Request} {status : ℕ}
    {response : List UInt8} {f : Frame format} (hr : r ∈ requests conn.toServer.read)
    (hf : frame .reply status r.id response = .ok f) :
    (conn.reply r status response f).Inv Made := by
  obtain ⟨queue, hqueue⟩ := h.toClient
  refine { h with
    toClient := hqueue.write f
    answers := fun a ha => ?_
    replies := fun raw hraw => ?_ }
  · rcases List.mem_append.mp ha with ha | ha
    · exact h.answers a ha
    · obtain rfl := List.mem_singleton.mp ha
      exact hr
  · rcases mem_written_write hraw with hraw | rfl
    · obtain ⟨a, ha, heq⟩ := h.replies raw hraw
      exact ⟨a, List.mem_append_left _ ha, heq⟩
    · exact ⟨_, List.mem_append_right _ (List.mem_singleton.mpr rfl), raw_of_frame hf⟩

theorem Connection.Inv.answer (h : conn.Inv Made) {id : ℕ} {task : Task}
    (hget : conn.active.get? id = some task) (result : HandlerEnd) :
    (conn.answer id task result).Inv Made := by
  have htask := h.setTask { task with phase := .ended } hget rfl rfl
    fun ⟨_, hk⟩ => by cases hk
  unfold Connection.answer
  split
  · exact htask
  · split
    · next hf => exact htask.reply (h.active id task hget) hf
    · exact htask

/-- **A handler is started** for a request for which none was. -/
theorem Connection.Inv.dispatch (h : conn.Inv Made) {id : ℕ} {task : Task}
    (hget : conn.active.get? id = some task) {cancelled : Bool}
    (hphase : task.phase = .created cancelled) (decodes : Bool) :
    (conn.dispatch id task decodes).Inv Made := by
  unfold Connection.dispatch
  split
  · have htask := h.setTask { task with phase := .running } hget rfl rfl
      fun ⟨_, hk⟩ => by cases hk
    have hnew : ∀ r ∈ conn.started, r.id ≠ id := fun r hr hid =>
      h.created r hr task (hid ▸ hget) cancelled hphase
    refine { htask with
      started := fun r hr => ?_
      startedOnce := ?_
      created := fun r hr task' hget' k hk => ?_ }
    · rcases List.mem_append.mp hr with hr | hr
      · exact h.started r hr
      · obtain rfl := List.mem_singleton.mp hr
        exact h.active id task hget
    · change ((conn.started ++ [_]).map Request.id).Nodup
      rw [List.map_append]
      refine List.nodup_append.mpr ⟨h.startedOnce, List.pairwise_singleton _ _, ?_⟩
      rintro k hk _ hk' rfl
      obtain ⟨r, hr, hid⟩ := List.mem_map.mp hk
      exact hnew r hr (hid.trans (List.mem_singleton.mp hk'))
    · rcases List.mem_append.mp hr with hr | hr
      · exact htask.created r hr task' hget' k hk
      · obtain rfl := List.mem_singleton.mp hr
        obtain rfl := Option.some.inj ((Dict.get?_set_self ..).symm.trans hget')
        cases hk
  · exact h.answer hget _

/-- **A frame that is read** at the server: a request is new there. -/
theorem Connection.Inv.readLine (h : conn.Inv Made) {frame : Header × List UInt8}
    {line : Line format} (hread : conn.toServer.readPayload = some (frame, line)) :
    ({ conn with toServer := line } : Connection).Inv Made ∧
      ∀ r, asRequest frame = some r →
        r ∈ requests line.read ∧ ∀ r' ∈ conn.started, r'.id ≠ r.id := by
  obtain ⟨queue, hqueue⟩ := h.toServer
  obtain ⟨f, rest, rfl, hf, hwritten, hhistory, hline⟩ := hqueue.readPayload hread
  have hsub : ∀ r ∈ requests conn.toServer.read, r ∈ requests line.read := by
    intro r hr
    rw [hhistory, requests, List.filterMap_append]
    exact List.mem_append_left _ hr
  refine ⟨?_, fun r hr => ⟨?_, fun r' hr' hid => ?_⟩⟩
  · exact {
      toServer := ⟨rest, hline⟩
      toClient := h.toClient
      made := hwritten ▸ h.made
      once := hwritten ▸ h.once
      active := fun id task hget => hsub _ (h.active id task hget)
      started := fun r hr => hsub r (h.started r hr)
      startedOnce := h.startedOnce
      created := h.created
      answers := fun a ha => hsub _ (h.answers a ha)
      replies := h.replies }
  · rw [hhistory, requests, List.filterMap_append]
    refine List.mem_append_right _ (List.mem_filterMap.mpr ⟨frame, List.mem_singleton.mpr rfl, hr⟩)
  · have honce := h.once
    rw [hqueue.written, requests, List.map_cons, List.filterMap_append, List.filterMap_cons, ← hf,
      hr, List.map_append, List.nodup_append] at honce
    refine honce.2.2 _ (List.mem_map_of_mem (h.started r' hr')) _ ?_ hid
    exact List.mem_cons_self

theorem asRequest_of_kind {h : Header} {payload : List UInt8} (hkind : h.kind = .request) :
    asRequest (h, payload) = some ⟨h.callId, h.code, payload⟩ :=
  if_pos hkind

theorem Connection.Inv.greet (h : conn.Inv Made) (hd : Header) (payload : List UInt8) :
    (conn.greet hd payload).Inv Made := by
  unfold Connection.greet
  split
  · exact h.keep h.toServer h.toClient rfl rfl rfl rfl rfl rfl
  · exact h.reject

/-- **A later frame**: a task is created for a request that is new. -/
theorem Connection.Inv.serve (h : conn.Inv Made) {hd : Header} {payload : List UInt8}
    (hnew : ∀ r, asRequest (hd, payload) = some r →
      r ∈ requests conn.toServer.read ∧ ∀ r' ∈ conn.started, r'.id ≠ r.id) :
    (conn.serve hd payload).Inv Made := by
  unfold Connection.serve
  split
  · split
    · next task hget =>
        refine h.setTask (cancelTask task) hget ?_ ?_ ?_ <;> unfold cancelTask
        · split <;> rfl
        · split <;> rfl
        · split
          · next k hk => exact fun _ => ⟨k, hk⟩
          · exact id
          · exact id
    · exact h
  · split
    · exact h.reject
    · next hcond =>
        obtain ⟨hkind, -, -, -⟩ := not_not.mp hcond
        obtain ⟨hread, hstarted⟩ := hnew _ (asRequest_of_kind hkind)
        split
        · dsimp only
          split
          · next hf => exact h.reply hread hf
          · exact h.reject
        · refine h.tasks fun id task hget => ?_
          obtain ⟨heq, rfl⟩ | ⟨-, hget⟩ := Dict.of_get?_set hget
          · obtain rfl : id = hd.callId := heq
            exact ⟨hread, fun r hr hid => absurd hid (hstarted r hr)⟩
          · exact ⟨h.active id task hget, fun r hr hid => h.created r hr task (hid ▸ hget)⟩

/-- **A move of the server** keeps the invariant of the connection. -/
theorem Connection.Inv.apply (h : conn.Inv Made) {move : ServerMove}
    (hmove : conn.apply move = some conn') : conn'.Inv Made := by
  cases move with
  | arrive n =>
      obtain rfl := Option.some.inj hmove
      obtain ⟨queue, hqueue⟩ := h.toServer
      exact h.keep ⟨queue, hqueue.arrive n⟩ h.toClient rfl rfl rfl rfl rfl rfl
  | header =>
      simp only [Connection.apply] at hmove
      split at hmove
      · cases hmove
      · obtain ⟨r, hr, rfl⟩ := Option.map_eq_some_iff.mp hmove
        obtain ⟨queue, hqueue⟩ := h.toServer
        obtain ⟨line, rfl, hline⟩ := hqueue.readHeader hr
        obtain ⟨hwritten, hread⟩ := Line.readHeader_history hr
        exact h.keep ⟨queue, hline⟩ h.toClient hwritten hread rfl rfl rfl rfl
  | read =>
      obtain ⟨⟨⟨hd, payload⟩, line⟩, hread, hmove⟩ := Option.bind_eq_some_iff.mp hmove
      obtain ⟨hline, hnew⟩ := h.readLine hread
      dsimp only at hmove
      split at hmove
      · exact (Option.some.inj hmove) ▸ hline.greet hd payload
      · exact (Option.some.inj hmove) ▸ hline.serve hnew
      · cases hmove
  | dispatch id decodes =>
      obtain ⟨task, hget, hmove⟩ := Option.bind_eq_some_iff.mp hmove
      split at hmove
      · next hphase => exact (Option.some.inj hmove) ▸ h.dispatch hget hphase decodes
      · exact (Option.some.inj hmove) ▸ h.setTask _ hget rfl rfl fun ⟨_, hk⟩ => by cases hk
      · cases hmove
      · cases hmove
  | answer id result =>
      obtain ⟨task, hget, hmove⟩ := Option.bind_eq_some_iff.mp hmove
      split at hmove
      · exact (Option.some.inj hmove) ▸ h.answer hget result
      · cases hmove
      · cases hmove
  | retire id =>
      obtain ⟨task, hget, hmove⟩ := Option.bind_eq_some_iff.mp hmove
      split at hmove
      · exact (Option.some.inj hmove) ▸ h.eraseTask id
      · cases hmove
      · cases hmove
  | ends => exact (Option.some.inj hmove) ▸ h.endServing
  | closes => exact (Option.some.inj hmove) ▸ h.closeClient

/-- What the server leaves to the channel: who waits, and whether the channel reads; and no reply
is taken back. -/
structure Connection.Leaves (conn conn' : Connection) : Prop where
  pending : ∀ id, conn'.pending.get? id = conn.pending.get? id
  receiving : conn'.receiving = conn.receiving
  answers : ∀ a ∈ conn.answers, a ∈ conn'.answers

theorem Connection.leaves_answer (conn : Connection) (id : ℕ) (task : Task)
    (result : HandlerEnd) : conn.Leaves (conn.answer id task result) := by
  unfold Connection.answer
  split
  · exact ⟨fun _ => rfl, rfl, fun _ ha => ha⟩
  · split
    · exact ⟨fun _ => rfl, rfl, fun _ ha => List.mem_append_left _ ha⟩
    · exact ⟨fun _ => rfl, rfl, fun _ ha => ha⟩

theorem Connection.leaves_read (h : conn.read = some conn') : conn.Leaves conn' := by
  obtain ⟨⟨⟨hd, payload⟩, line⟩, -, h⟩ := Option.bind_eq_some_iff.mp h
  dsimp only at h
  split at h
  · obtain rfl := Option.some.inj h
    unfold Connection.greet
    split <;> exact ⟨fun _ => rfl, rfl, fun _ ha => ha⟩
  · obtain rfl := Option.some.inj h
    unfold Connection.serve
    split
    · split <;> exact ⟨fun _ => rfl, rfl, fun _ ha => ha⟩
    · split
      · exact ⟨fun _ => rfl, rfl, fun _ ha => ha⟩
      · split
        · dsimp only
          split
          · exact ⟨fun _ => rfl, rfl, fun _ ha => List.mem_append_left _ ha⟩
          · exact ⟨fun _ => rfl, rfl, fun _ ha => ha⟩
        · exact ⟨fun _ => rfl, rfl, fun _ ha => ha⟩
  · cases h

/-- **A move of the server** does not touch the calls that wait. -/
theorem Connection.leaves_apply {move : ServerMove} (hmove : conn.apply move = some conn') :
    conn.Leaves conn' := by
  have hrefl : ∀ {line : Line format} {active : Dict ℕ Task} {started : List Request},
      conn.Leaves { conn with toServer := line, active := active, started := started } :=
    ⟨fun _ => rfl, rfl, fun _ ha => ha⟩
  cases move with
  | arrive n => exact (Option.some.inj hmove) ▸ hrefl
  | header =>
      simp only [Connection.apply] at hmove
      split at hmove
      · cases hmove
      · obtain ⟨r, -, rfl⟩ := Option.map_eq_some_iff.mp hmove
        split <;> exact ⟨fun _ => rfl, rfl, fun _ ha => ha⟩
  | read => exact Connection.leaves_read hmove
  | dispatch id decodes =>
      obtain ⟨task, -, hmove⟩ := Option.bind_eq_some_iff.mp hmove
      split at hmove
      · obtain rfl := Option.some.inj hmove
        unfold Connection.dispatch
        split
        · exact hrefl
        · exact conn.leaves_answer id task _
      · exact (Option.some.inj hmove) ▸ hrefl
      · cases hmove
      · cases hmove
  | answer id result =>
      obtain ⟨task, -, hmove⟩ := Option.bind_eq_some_iff.mp hmove
      split at hmove
      · exact (Option.some.inj hmove) ▸ conn.leaves_answer id task result
      · cases hmove
      · cases hmove
  | retire id =>
      obtain ⟨task, -, hmove⟩ := Option.bind_eq_some_iff.mp hmove
      split at hmove
      · exact (Option.some.inj hmove) ▸ hrefl
      · cases hmove
      · cases hmove
  | ends => exact (Option.some.inj hmove) ▸ ⟨fun _ => rfl, rfl, fun _ ha => ha⟩
  | closes => exact (Option.some.inj hmove) ▸ ⟨fun _ => rfl, rfl, fun _ ha => ha⟩

end Connections

/-! ### The invariant of a channel -/

/-- A call has made a request on a connection. -/
def State.Made (s : State) (c : ℕ) (r : Request) : Prop :=
  ∃ i call, s.calls i = some call ∧ call.connection = some c ∧ call.asRequest = r

/-- A call has a reply, or ended with it. -/
def Call.Shows (call : Call) (status : ℕ) (response : List UInt8) : Prop :=
  call.future = .result status response ∨ call.phase = .ended (.reply status response)

/-- A reply was made for the request of a call. -/
def State.Answered (s : State) (call : Call) (status : ℕ) (response : List UInt8) : Prop :=
  ∃ c, call.connection = some c ∧ ⟨call.asRequest, status, response⟩ ∈ (s.connections c).answers

/-- **The invariant of a channel and its server.** -/
structure Inv (s : State) : Prop where
  connections : ∀ c, (s.connections c).Inv (s.Made c)
  numbered : ∀ i call c, s.calls i = some call → call.connection = some c →
    0 < call.callId ∧ call.callId ≤ s.nextId ∧ c < s.opened
  distinct : ∀ i j call call' c c', s.calls i = some call → s.calls j = some call' →
    call.connection = some c → call'.connection = some c' → call.callId = call'.callId → i = j
  /-- A call has a connection when it has sent its request, and none before. -/
  placed : ∀ i call, s.calls i = some call → call.isEnded = false →
    call.connection.isSome = call.inFlight
  pending : ∀ c id i, (s.connections c).pending.get? id = some i ↔
    ∃ call, s.calls i = some call ∧ call.inFlight ∧ call.connection = some c ∧ call.callId = id
  replies : ∀ i call status response, s.calls i = some call → call.Shows status response →
    s.Answered call status response
  lost : ∀ c i call, (s.connections c).receiving = false → s.calls i = some call →
    call.inFlight → call.connection = some c → call.future ≠ .waiting
  current : ∀ c, s.current = some c → (s.connections c).receiving = true ∧ c < s.opened

theorem Inv.initial (token : String) : Inv (.initial token) where
  connections c := .fresh
  numbered i call c hcall := by cases hcall
  distinct i j call call' c c' hcall := by cases hcall
  placed i call hcall := by cases hcall
  pending c id i := by
    constructor
    · intro h
      cases h
    · rintro ⟨call, hcall, -⟩
      cases hcall
  replies i call status response hcall := by cases hcall
  lost c i call hreceiving := by cases hreceiving
  current c hc := by cases hc

section Calls

variable {s t : State} {i c : ℕ} {call : Call}

theorem Inv.congr (h : Inv s) (hcalls : t.calls = s.calls)
    (hconnections : t.connections = s.connections) (hnext : t.nextId = s.nextId)
    (hopened : t.opened = s.opened) (hcurrent : t.current = s.current) : Inv t := by
  cases s
  cases t
  subst hcalls hconnections hnext hopened hcurrent
  exact ⟨h.connections, h.numbered, h.distinct, h.placed, h.pending, h.replies, h.lost, h.current⟩

/-- What a change of a call leaves: its request, and whether it is in flight. -/
structure Call.Leaves (call call' : Call) : Prop where
  connection : call'.connection = call.connection
  request : call'.asRequest = call.asRequest
  inFlight : call'.inFlight = call.inFlight
  ended : call'.isEnded = false → call.isEnded = false

variable {call' : Call} {conn : Connection}

theorem Call.Leaves.callId (h : call.Leaves call') : call'.callId = call.callId :=
  congrArg Request.id h.request

/-- **A change of calls** that leaves their requests, where a reply that is new was made for the
call that has it. -/
theorem Inv.mapCalls (h : Inv s) {g : ℕ → Call → Call}
    (hcalls : ∀ i, t.calls i = (s.calls i).map (g i)) (hconnections : t.connections = s.connections)
    (hnext : t.nextId = s.nextId) (hopened : t.opened = s.opened)
    (hcurrent : ∀ c, t.current = some c → s.current = some c)
    (hleaves : ∀ i call, s.calls i = some call → call.Leaves (g i call))
    (hreplies : ∀ i call status response, s.calls i = some call →
      (g i call).Shows status response → s.Answered call status response)
    (hwaiting : ∀ i call, s.calls i = some call → (g i call).future = .waiting →
      call.future = .waiting) : Inv t := by
  have hold : ∀ i call', t.calls i = some call' → ∃ call, s.calls i = some call ∧
      call' = g i call ∧ call.Leaves call' := by
    intro i call' hcall'
    rw [hcalls] at hcall'
    obtain ⟨call, hcall, rfl⟩ := Option.map_eq_some_iff.mp hcall'
    exact ⟨call, hcall, rfl, hleaves i call hcall⟩
  have hnew : ∀ i call, s.calls i = some call → t.calls i = some (g i call) := by
    intro i call hcall
    rw [hcalls, hcall, Option.map_some]
  refine ⟨fun c => ?_, fun i call' c hcall' hc => ?_, fun i j call' call₁' c c' hi hj hc hc' hid => ?_,
    fun i call' hcall' hended => ?_, fun c id i => ?_, fun i call' status response hcall' hshows => ?_,
    fun c i call' hreceiving hcall' hflight hc => ?_, fun c hc => ?_⟩
  · rw [hconnections]
    refine (h.connections c).weaken fun r ⟨i, call, hcall, hc, hr⟩ => ?_
    have hl := hleaves i call hcall
    exact ⟨i, _, hnew i call hcall, hl.connection.trans hc, hl.request.trans hr⟩
  · obtain ⟨call, hcall, -, hl⟩ := hold i call' hcall'
    rw [hl.callId, hnext, hopened]
    exact h.numbered i call c hcall (hl.connection ▸ hc)
  · obtain ⟨call, hcall, -, hl⟩ := hold i call' hi
    obtain ⟨call₁, hcall₁, -, hl₁⟩ := hold j call₁' hj
    rw [hl.callId, hl₁.callId] at hid
    exact h.distinct i j call call₁ c c' hcall hcall₁ (hl.connection ▸ hc) (hl₁.connection ▸ hc') hid
  · obtain ⟨call, hcall, -, hl⟩ := hold i call' hcall'
    rw [hl.connection, hl.inFlight]
    exact h.placed i call hcall (hl.ended hended)
  · rw [hconnections, h.pending c id i]
    constructor
    · rintro ⟨call, hcall, hflight, hc, hid⟩
      have hl := hleaves i call hcall
      exact ⟨_, hnew i call hcall, hl.inFlight.trans hflight, hl.connection.trans hc,
        hl.callId.trans hid⟩
    · rintro ⟨call', hcall', hflight, hc, hid⟩
      obtain ⟨call, hcall, -, hl⟩ := hold i call' hcall'
      exact ⟨call, hcall, hl.inFlight ▸ hflight, hl.connection ▸ hc, hl.callId ▸ hid⟩
  · obtain ⟨call, hcall, rfl, hl⟩ := hold i call' hcall'
    rw [State.Answered, hl.connection, hl.request, hconnections]
    exact hreplies i call status response hcall hshows
  · obtain ⟨call, hcall, rfl, hl⟩ := hold i call' hcall'
    rw [hconnections] at hreceiving
    intro hfuture
    exact h.lost c i call hreceiving hcall (hl.inFlight ▸ hflight) (hl.connection ▸ hc)
      (hwaiting i call hcall hfuture)
  · rw [hconnections, hopened]
    exact h.current c (hcurrent c hc)

/-- **A change of a connection** that leaves the calls: it goes on being read, or it was not, or
nothing waits on it. -/
theorem Inv.setConnection (h : Inv s) (conn' : Connection) (hinv : conn'.Inv (s.Made c))
    (hpending : ∀ id, conn'.pending.get? id = (s.connections c).pending.get? id)
    (hanswers : ∀ a ∈ (s.connections c).answers, a ∈ conn'.answers)
    (hreceiving : conn'.receiving = false → (s.connections c).receiving = false ∨
      s.current ≠ some c ∧ ∀ i call, s.calls i = some call → call.inFlight →
        call.connection = some c → call.future ≠ .waiting) : Inv (s.setConnection c conn') := by
  have hself : (s.setConnection c conn').connections c = conn' := Function.update_self ..
  have hother : ∀ c', c' ≠ c → (s.setConnection c conn').connections c' = s.connections c' :=
    fun c' hc' => Function.update_of_ne hc' ..
  refine { h with
    connections := fun c' => ?_
    pending := fun c' id i => ?_
    replies := fun i call status response hcall hshows => ?_
    lost := fun c' i call hfalse hcall hflight hc => ?_
    current := fun c' hc' => ?_ }
  · by_cases hc : c' = c
    · subst hc
      rw [hself]
      exact hinv
    · rw [hother c' hc]
      exact h.connections c'
  · by_cases hc : c' = c
    · subst hc
      rw [hself, hpending]
      exact h.pending c' id i
    · rw [hother c' hc]
      exact h.pending c' id i
  · obtain ⟨c', hc', hmem⟩ := h.replies i call status response hcall hshows
    refine ⟨c', hc', ?_⟩
    by_cases hc : c' = c
    · subst hc
      rw [hself]
      exact hanswers _ hmem
    · rw [hother c' hc]
      exact hmem
  · by_cases hc' : c' = c
    · subst hc'
      rw [hself] at hfalse
      rcases hreceiving hfalse with hold | ⟨-, hwait⟩
      · exact h.lost c' i call hold hcall hflight hc
      · exact hwait i call hcall hflight hc
    · rw [hother c' hc'] at hfalse
      exact h.lost c' i call hfalse hcall hflight hc
  · obtain ⟨htrue, hlt⟩ := h.current c' hc'
    refine ⟨?_, hlt⟩
    by_cases hc : c' = c
    · subst hc
      rw [hself]
      cases hr : conn'.receiving with
      | true => rfl
      | false =>
          rcases hreceiving hr with hold | ⟨hne, -⟩
          · rw [hold] at htrue
            cases htrue
          · exact absurd hc' hne
    · rw [hother c' hc]
      exact htrue

/-- **A move of the server.** -/
theorem Inv.server (h : Inv s) {move : ServerMove} {conn' : Connection}
    (hmove : (s.connections c).apply move = some conn') : Inv (s.setConnection c conn') := by
  have hleaves := Connection.leaves_apply hmove
  exact h.setConnection _ ((h.connections c).apply hmove) hleaves.pending hleaves.answers
    fun hfalse => .inl (hleaves.receiving ▸ hfalse)

theorem calls_setCall (hcall : s.calls i = some call) (call' : Call) (j : ℕ) :
    (s.setCall i call').calls j = (s.calls j).map fun old => if j = i then call' else old := by
  by_cases hj : j = i
  · subst hj
    rw [hcall]
    simp only [State.setCall, Function.update_self, Option.map_some, if_pos]
  · simp only [State.setCall, Function.update_of_ne hj, if_neg hj]
    exact Option.map_id'.symm

/-- **A change of one call** that leaves its request. -/
theorem Inv.setCall (h : Inv s) (hcall : s.calls i = some call) (hleaves : call.Leaves call')
    (hreplies : ∀ status response, call'.Shows status response →
      s.Answered call status response)
    (hwaiting : call'.future = .waiting → call.future = .waiting) : Inv (s.setCall i call') := by
  refine h.mapCalls (calls_setCall hcall call') rfl rfl rfl (fun _ hc => hc) (fun j old hold => ?_)
    (fun j old status response hold hshows => ?_) (fun j old hold hfuture => ?_)
  · split
    · next hj =>
        subst hj
        obtain rfl := Option.some.inj (hcall.symm.trans hold)
        exact hleaves
    · exact ⟨rfl, rfl, rfl, id⟩
  · split at hshows
    · next hj =>
        subst hj
        obtain rfl := Option.some.inj (hcall.symm.trans hold)
        exact hreplies status response hshows
    · exact h.replies j old status response hold hshows
  · split at hfuture
    · next hj =>
        subst hj
        obtain rfl := Option.some.inj (hcall.symm.trans hold)
        exact hwaiting hfuture
    · exact hfuture

variable {Made : Request → Prop}

/-- What is written to the server, where a request is new and made. -/
theorem Connection.Inv.write (h : conn.Inv Made) (f : Frame format)
    (hnew : ∀ r, asRequest f.raw = some r →
      Made r ∧ ∀ r' ∈ requests conn.toServer.written, r'.id ≠ r.id) :
    ({ conn with toServer := conn.toServer.write f } : Connection).Inv Made := by
  obtain ⟨queue, hqueue⟩ := h.toServer
  have hread : (conn.toServer.write f).read = conn.toServer.read := by
    unfold Line.write
    split <;> rfl
  have hsub : requests (conn.toServer.write f).written = requests conn.toServer.written ∨
      ∃ r, asRequest f.raw = some r ∧ requests (conn.toServer.write f).written =
        requests conn.toServer.written ++ [r] := by
    unfold Line.write
    split
    · exact .inl rfl
    · cases hr : asRequest f.raw with
      | none =>
          left
          rw [requests, List.filterMap_append, List.filterMap_cons, hr]
          exact List.append_nil _
      | some r =>
          right
          refine ⟨r, rfl, ?_⟩
          rw [requests, List.filterMap_append, List.filterMap_cons, hr]
          rfl
  have hactive : ∀ r, r ∈ requests conn.toServer.read →
      r ∈ requests (conn.toServer.write f).read := fun r hr => hread ▸ hr
  refine { h with
    toServer := hqueue.write f
    made := ?_
    once := ?_
    active := fun id task hget => hactive _ (h.active id task hget)
    started := fun r hr => hactive r (h.started r hr)
    answers := fun a ha => hactive _ (h.answers a ha) }
  · rcases hsub with heq | ⟨r, hr, heq⟩
    · exact heq ▸ h.made
    · intro r' hr'
      rw [heq] at hr'
      rcases List.mem_append.mp hr' with hr' | hr'
      · exact h.made r' hr'
      · obtain rfl := List.mem_singleton.mp hr'
        exact (hnew r' hr).1
  · rcases hsub with heq | ⟨r, hr, heq⟩
    · exact heq ▸ h.once
    · rw [heq, List.map_append]
      refine List.nodup_append.mpr ⟨h.once, List.pairwise_singleton _ _, ?_⟩
      rintro k hk _ hk' rfl
      obtain ⟨r', hr', rfl⟩ := List.mem_map.mp hk
      exact (hnew r hr).2 r' hr' (List.mem_singleton.mp hk')

theorem Connection.Inv.closeServer (h : conn.Inv Made) :
    ({ conn with toServer := conn.toServer.close } : Connection).Inv Made := by
  obtain ⟨queue, hqueue⟩ := h.toServer
  exact h.keep ⟨queue, hqueue.close⟩ h.toClient rfl rfl rfl rfl rfl rfl

theorem Connection.Inv.setPending (h : conn.Inv Made) (pending : Dict ℕ ℕ) :
    ({ conn with pending := pending } : Connection).Inv Made :=
  h.keep h.toServer h.toClient rfl rfl rfl rfl rfl rfl

theorem Inv.connection_none (h : Inv s) (hcall : s.calls i = some call)
    (hended : call.isEnded = false) (hflight : call.inFlight = false) : call.connection = none := by
  have hplaced := h.placed i call hcall hended
  rw [hflight] at hplaced
  exact Option.isSome_eq_false_iff.mp hplaced |> Option.isNone_iff_eq_none.mp

theorem shows_of_ended {outcome : Outcome} {status : ℕ} {response : List UInt8}
    (houtcome : ∀ status response, outcome = .reply status response →
      call.future = .result status response)
    (h : ({ call with phase := .ended outcome } : Call).Shows status response) :
    call.Shows status response := by
  rcases h with hfuture | hphase
  · exact .inl hfuture
  · exact .inl (houtcome status response (Phase.ended.inj hphase))

/-- A call in flight that ends: its number is no longer waited for. -/
theorem Inv.endFlight (h : Inv s) (hcall : s.calls i = some call) (hc : call.connection = some c)
    {outcome : Outcome} (houtcome : ∀ status response, outcome = .reply status response →
      call.future = .result status response) :
    Inv ((s.setConnection c { s.connections c with
      pending := (s.connections c).pending.erase call.callId }).setCall i
        { call with phase := .ended outcome }) := by
  have hshows : ∀ status response,
      ({ call with phase := .ended outcome } : Call).Shows status response →
      call.Shows status response := fun _ _ => shows_of_ended houtcome
  let conn := s.connections c
  let t := (s.setConnection c { conn with pending := conn.pending.erase call.callId }).setCall i
    { call with phase := .ended outcome }
  change Inv t
  have hself : t.connections c = { conn with pending := conn.pending.erase call.callId } :=
    Function.update_self ..
  have hother : ∀ c', c' ≠ c → t.connections c' = s.connections c' :=
    fun c' hc' => Function.update_of_ne hc' ..
  have hnew : t.calls i = some { call with phase := .ended outcome } := Function.update_self ..
  have hrest : ∀ j, j ≠ i → t.calls j = s.calls j := fun j hj => Function.update_of_ne hj ..
  -- every call of the new state has its request from the old one
  have hold : ∀ j call', t.calls j = some call' → ∃ old, s.calls j = some old ∧
      call'.connection = old.connection ∧ call'.asRequest = old.asRequest ∧
      (call' = old ∨ call'.isEnded = true ∧ call'.inFlight = false) ∧
      (∀ status response, call'.Shows status response → old.Shows status response) := by
    intro j call' hcall'
    by_cases hj : j = i
    · subst hj
      obtain rfl := Option.some.inj (hnew.symm.trans hcall')
      exact ⟨call, hcall, rfl, rfl, .inr ⟨rfl, rfl⟩, hshows⟩
    · rw [hrest j hj] at hcall'
      exact ⟨call', hcall', rfl, rfl, .inl rfl, fun _ _ => id⟩
  have hanswers : ∀ c', (t.connections c').answers = (s.connections c').answers := by
    intro c'
    by_cases hc' : c' = c
    · rw [hc', hself]
    · rw [hother c' hc']
  have hmade : ∀ c' r, s.Made c' r → t.Made c' r := by
    rintro c' r ⟨j, old, hj', hc', hr⟩
    by_cases hj : j = i
    · subst hj
      obtain rfl := Option.some.inj (hcall.symm.trans hj')
      exact ⟨j, _, hnew, hc', hr⟩
    · exact ⟨j, old, (hrest j hj).trans hj', hc', hr⟩
  refine ⟨fun c' => ?_, fun j call' c' hj hc' => ?_, fun j k call' call₁' c₁ c₂ hj hk h₁ h₂ hid => ?_,
    fun j call' hj hnot => ?_, fun c' id j => ?_, fun j call' status response hj hs => ?_,
    fun c' j call' hfalse hj hflight hc' => ?_, fun c' hc' => ?_⟩
  · by_cases hc' : c' = c
    · subst hc'
      rw [hself]
      exact ((h.connections c').setPending _).weaken (hmade c')
    · rw [hother c' hc']
      exact (h.connections c').weaken (hmade c')
  · obtain ⟨old, hj, hconn, hreq, -, -⟩ := hold j call' hj
    have hid : call'.callId = old.callId := congrArg Request.id hreq
    rw [hid]
    exact h.numbered j old c' hj (hconn ▸ hc')
  · obtain ⟨old, hj, hconn, hreq, -, -⟩ := hold j call' hj
    obtain ⟨old₁, hk, hconn₁, hreq₁, -, -⟩ := hold k call₁' hk
    have hid' : old.callId = old₁.callId :=
      (congrArg Request.id hreq).symm.trans (hid.trans (congrArg Request.id hreq₁))
    exact h.distinct j k old old₁ c₁ c₂ hj hk (hconn ▸ h₁) (hconn₁ ▸ h₂) hid'
  · obtain ⟨old, hj, -, -, rfl | ⟨hended', -⟩, -⟩ := hold j call' hj
    · exact h.placed j call' hj hnot
    · rw [hended'] at hnot
      cases hnot
  · have hpending : (t.connections c').pending.get? id =
        if c' = c ∧ id = call.callId then none else (s.connections c').pending.get? id := by
      by_cases hc' : c' = c
      · subst hc'
        rw [hself, Dict.get?_erase]
        simp only [true_and]
        rfl
      · rw [hother c' hc', if_neg (fun hand => hc' hand.1)]
    rw [hpending]
    constructor
    · intro hget
      obtain ⟨-, ⟨⟩⟩ | ⟨hne, hget⟩ := ite_eq_iff.mp hget
      obtain ⟨old, hj, hflight, hconn, hid⟩ := (h.pending c' id j).mp hget
      have hji : j ≠ i := by
        rintro rfl
        obtain rfl := Option.some.inj (hcall.symm.trans hj)
        exact hne ⟨(Option.some.inj (hc.symm.trans hconn)).symm, hid.symm⟩
      exact ⟨old, (hrest j hji).trans hj, hflight, hconn, hid⟩
    · rintro ⟨call', hj, hflight, hconn, hid⟩
      obtain ⟨old, hj', -, -, rfl | ⟨-, hflight'⟩, -⟩ := hold j call' hj
      · have hji : j ≠ i := by
          rintro rfl
          obtain rfl := Option.some.inj (hnew.symm.trans hj)
          cases hflight
        rw [if_neg, h.pending c' id j]
        · exact ⟨call', hj', hflight, hconn, hid⟩
        · rintro ⟨rfl, hid'⟩
          exact hji (h.distinct j i call' call c' c' hj' hcall hconn hc (hid.trans hid'))
      · rw [hflight'] at hflight
        cases hflight
  · obtain ⟨old, hj, hconn, hreq, -, hs'⟩ := hold j call' hj
    obtain ⟨c', hc', hmem⟩ := h.replies j old status response hj (hs' _ _ hs)
    refine ⟨c', hconn.trans hc', ?_⟩
    rw [hanswers, hreq]
    exact hmem
  · obtain ⟨old, hj', -, -, rfl | ⟨-, hflight'⟩, -⟩ := hold j call' hj
    · refine h.lost c' j call' ?_ hj' hflight hc'
      by_cases heq : c' = c
      · rw [heq, hself] at hfalse
        rw [heq]
        exact hfalse
      · rw [hother c' heq] at hfalse
        exact hfalse
    · rw [hflight'] at hflight
      cases hflight
  · obtain ⟨htrue, hlt⟩ := h.current c' hc'
    refine ⟨?_, hlt⟩
    by_cases heq : c' = c
    · rw [heq, hself]
      rw [heq] at htrue
      exact htrue
    · rw [hother c' heq]
      exact htrue

theorem forget_of_none (hc : call.connection = none) : s.forget call = s := by
  rw [State.forget, hc]

theorem forget_of_some (hc : call.connection = some c) :
    s.forget call = s.setConnection c { s.connections c with
      pending := (s.connections c).pending.erase call.callId } := by
  rw [State.forget, hc]

/-- **A call that ends**: it is no longer waited for. -/
theorem Inv.finish (h : Inv s) (hcall : s.calls i = some call) (hended : call.isEnded = false)
    {outcome : Outcome} (houtcome : ∀ status response, outcome = .reply status response →
      call.future = .result status response) : Inv (s.finish i call outcome) := by
  refine Inv.congr (s := (s.forget call).setCall i { call with phase := .ended outcome }) ?_
    rfl rfl rfl rfl rfl
  rcases Option.eq_none_or_eq_some call.connection with hc | ⟨c, hc⟩
  · have hflight : call.inFlight = false := by
      have hplaced := h.placed i call hcall hended
      rw [hc] at hplaced
      exact hplaced.symm
    rw [forget_of_none hc]
    exact h.setCall hcall ⟨rfl, rfl, hflight.symm, fun _ => hended⟩
      (fun status response hs => h.replies i call status response hcall
        (shows_of_ended houtcome hs)) id
  · rw [forget_of_some hc]
    exact h.endFlight hcall hc houtcome

/-- **A new call** has no number yet. -/
theorem Inv.newCall (h : Inv s) (hcall : s.calls i = none) (method : Method) (request : List UInt8)
    (timed : Bool) : Inv (s.setCall i (.made method request timed)) := by
  have hnew : (s.setCall i (.made method request timed)).calls i =
      some (.made method request timed) := Function.update_self ..
  have hrest : ∀ j, j ≠ i → (s.setCall i (.made method request timed)).calls j = s.calls j :=
    fun j hj => Function.update_of_ne hj ..
  have hflight : (Call.made method request timed).inFlight = false := by
    unfold Call.inFlight Call.made
    cases method.business <;> rfl
  have hold : ∀ j call, s.calls j = some call →
      (s.setCall i (.made method request timed)).calls j = some call := by
    intro j call hj
    refine (hrest j ?_).trans hj
    rintro rfl
    rw [hcall] at hj
    cases hj
  have hcases : ∀ j call, (s.setCall i (.made method request timed)).calls j = some call →
      s.calls j = some call ∨ call = .made method request timed := by
    intro j call hj
    by_cases hji : j = i
    · subst hji
      exact .inr (Option.some.inj (hnew.symm.trans hj)).symm
    · exact .inl ((hrest j hji).symm.trans hj)
  refine { h with
    connections := fun c => ?_
    numbered := fun j call c hj hc => ?_
    distinct := fun j k call call' c c' hj hk hc hc' hid => ?_
    placed := fun j call hj hended => ?_
    pending := fun c id j => ?_
    replies := fun j call status response hj hshows => ?_
    lost := fun c j call hfalse hj hflight' hc => ?_ }
  · exact (h.connections c).weaken fun r ⟨j, call, hj, hc, hr⟩ => ⟨j, call, hold j call hj, hc, hr⟩
  · rcases hcases j call hj with hj | rfl
    · exact h.numbered j call c hj hc
    · cases hc
  · rcases hcases j call hj with hj | rfl
    · rcases hcases k call' hk with hk | rfl
      · exact h.distinct j k call call' c c' hj hk hc hc' hid
      · cases hc'
    · cases hc
  · rcases hcases j call hj with hj | rfl
    · exact h.placed j call hj hended
    · exact hflight.symm
  · refine (h.pending c id j).trans ⟨?_, ?_⟩
    · rintro ⟨call, hj, hand⟩
      exact ⟨call, hold j call hj, hand⟩
    · rintro ⟨call, hj, hflight', hand⟩
      rcases hcases j call hj with hj | rfl
      · exact ⟨call, hj, hflight', hand⟩
      · rw [hflight] at hflight'
        cases hflight'
  · rcases hcases j call hj with hj | rfl
    · exact h.replies j call status response hj hshows
    · exfalso
      rcases hshows with hfuture | hphase
      · cases hfuture
      · unfold Call.made at hphase
        cases hb : method.business <;> rw [hb] at hphase <;> cases hphase
  · rcases hcases j call hj with hj | rfl
    · exact h.lost c j call hfalse hj hflight' hc
    · cases hc

/-- **A call gets its number** on a connection that is read: it is in flight, or ends at once
without having sent anything. -/
theorem Inv.identify (h : Inv s) (hcall : s.calls i = some call) (hnone : call.connection = none)
    (hlt : c < s.opened) (hreceiving : (s.connections c).receiving = true) {phase : Phase}
    (hphase : ∀ status response, phase ≠ .ended (.reply status response)) {conn' : Connection}
    (hplaced : ({ s.identify call c with phase := phase } : Call).isEnded = false →
      ({ s.identify call c with phase := phase } : Call).inFlight = true)
    (hinv : (s.connections c).Inv (({ s.setConnection c conn' with nextId := s.nextId + 1 }
        : State).setCall i { s.identify call c with phase := phase } |>.Made c) →
      conn'.Inv (({ s.setConnection c conn' with nextId := s.nextId + 1 }
        : State).setCall i { s.identify call c with phase := phase } |>.Made c))
    (hpending : ∀ id j, conn'.pending.get? id = some j ↔
      (s.connections c).pending.get? id = some j ∨
        id = s.nextId + 1 ∧ j = i ∧
          ({ s.identify call c with phase := phase } : Call).inFlight = true)
    (hanswers : conn'.answers = (s.connections c).answers)
    (hconn : conn'.receiving = true) :
    Inv (({ s.setConnection c conn' with nextId := s.nextId + 1 } : State).setCall i
      { s.identify call c with phase := phase }) := by
  let call' : Call := { s.identify call c with phase := phase }
  let t := ({ s.setConnection c conn' with nextId := s.nextId + 1 } : State).setCall i call'
  change Inv t
  have hself : t.connections c = conn' := Function.update_self ..
  have hother : ∀ c', c' ≠ c → t.connections c' = s.connections c' :=
    fun c' hc' => Function.update_of_ne hc' ..
  have hnew : t.calls i = some call' := Function.update_self ..
  have hrest : ∀ j, j ≠ i → t.calls j = s.calls j := fun j hj => Function.update_of_ne hj ..
  have hcases : ∀ j call₁, t.calls j = some call₁ →
      (j ≠ i ∧ s.calls j = some call₁) ∨ (j = i ∧ call₁ = call') := by
    intro j call₁ hj
    by_cases hji : j = i
    · subst hji
      exact .inr ⟨rfl, (Option.some.inj (hnew.symm.trans hj)).symm⟩
    · exact .inl ⟨hji, (hrest j hji).symm.trans hj⟩
  -- the old call had no connection, so what was on one is there still
  have hold : ∀ j call₁ c', s.calls j = some call₁ → call₁.connection = some c' →
      t.calls j = some call₁ := by
    intro j call₁ c' hj hc'
    refine (hrest j ?_).trans hj
    rintro rfl
    obtain rfl := Option.some.inj (hcall.symm.trans hj)
    rw [hnone] at hc'
    cases hc'
  have hmade : ∀ c' r, s.Made c' r → t.Made c' r :=
    fun c' r ⟨j, call₁, hj, hc', hr⟩ => ⟨j, call₁, hold j call₁ c' hj hc', hc', hr⟩
  have hfresh : ∀ j call₁ c', s.calls j = some call₁ → call₁.connection = some c' →
      call₁.callId ≠ s.nextId + 1 := by
    intro j call₁ c' hj hc' hid
    have hle := (h.numbered j call₁ c' hj hc').2.1
    omega
  refine ⟨fun c' => ?_, fun j call₁ c' hj hc' => ?_, fun j k call₁ call₂ c₁ c₂ hj hk h₁ h₂ hid => ?_,
    fun j call₁ hj hended => ?_, fun c' id j => ?_, fun j call₁ status response hj hshows => ?_,
    fun c' j call₁ hfalse hj hflight hc' => ?_, fun c' hc' => ?_⟩
  · by_cases hc' : c' = c
    · subst hc'
      rw [hself]
      exact hinv ((h.connections c').weaken (hmade c'))
    · rw [hother c' hc']
      exact (h.connections c').weaken (hmade c')
  · rcases hcases j call₁ hj with ⟨-, hj⟩ | ⟨rfl, rfl⟩
    · obtain ⟨hpos, hle, hlt'⟩ := h.numbered j call₁ c' hj hc'
      exact ⟨hpos, Nat.le_succ_of_le hle, hlt'⟩
    · obtain rfl := Option.some.inj hc'
      exact ⟨Nat.succ_pos _, le_rfl, hlt⟩
  · rcases hcases j call₁ hj with ⟨-, hj'⟩ | ⟨rfl, rfl⟩
    · rcases hcases k call₂ hk with ⟨-, hk'⟩ | ⟨rfl, rfl⟩
      · exact h.distinct j k call₁ call₂ c₁ c₂ hj' hk' h₁ h₂ hid
      · exact absurd hid (hfresh j call₁ c₁ hj' h₁)
    · rcases hcases k call₂ hk with ⟨-, hk'⟩ | ⟨rfl, rfl⟩
      · exact absurd hid.symm (hfresh k call₂ c₂ hk' h₂)
      · rfl
  · rcases hcases j call₁ hj with ⟨-, hj⟩ | ⟨rfl, rfl⟩
    · exact h.placed j call₁ hj hended
    · exact (hplaced hended).symm
  · by_cases hc' : c' = c
    · subst hc'
      rw [hself, hpending, h.pending c' id j]
      constructor
      · rintro (⟨call₁, hj, hflight, hc', hid⟩ | ⟨rfl, rfl, hflight⟩)
        · exact ⟨call₁, hold j call₁ c' hj hc', hflight, hc', hid⟩
        · exact ⟨call', hnew, hflight, rfl, rfl⟩
      · rintro ⟨call₁, hj, hflight, hc', hid⟩
        rcases hcases j call₁ hj with ⟨-, hj⟩ | ⟨rfl, rfl⟩
        · exact .inl ⟨call₁, hj, hflight, hc', hid⟩
        · exact .inr ⟨hid.symm, rfl, hflight⟩
    · rw [hother c' hc', h.pending c' id j]
      constructor
      · rintro ⟨call₁, hj, hflight, hc', hid⟩
        exact ⟨call₁, hold j call₁ c' hj hc', hflight, hc', hid⟩
      · rintro ⟨call₁, hj, hflight, hc₁, hid⟩
        rcases hcases j call₁ hj with ⟨-, hj⟩ | ⟨rfl, rfl⟩
        · exact ⟨call₁, hj, hflight, hc₁, hid⟩
        · exact absurd (Option.some.inj hc₁).symm hc'
  · rcases hcases j call₁ hj with ⟨-, hj⟩ | ⟨rfl, rfl⟩
    · obtain ⟨c', hc', hmem⟩ := h.replies j call₁ status response hj hshows
      refine ⟨c', hc', ?_⟩
      by_cases heq : c' = c
      · rw [heq, hself, hanswers]
        rw [heq] at hmem
        exact hmem
      · rw [hother c' heq]
        exact hmem
    · rcases hshows with hfuture | hphase'
      · cases hfuture
      · exact absurd hphase' (hphase status response)
  · have hne : c' ≠ c := by
      rintro rfl
      rw [hself, hconn] at hfalse
      cases hfalse
    rw [hother c' hne] at hfalse
    rcases hcases j call₁ hj with ⟨-, hj⟩ | ⟨rfl, rfl⟩
    · exact h.lost c' j call₁ hfalse hj hflight hc'
    · exact absurd (Option.some.inj hc').symm hne
  · obtain ⟨htrue, hlt'⟩ := h.current c' hc'
    refine ⟨?_, hlt'⟩
    by_cases heq : c' = c
    · rw [heq, hself]
      exact hconn
    · rw [hother c' heq]
      exact htrue

theorem Inv.pending_fresh (h : Inv s) (c : ℕ) :
    (s.connections c).pending.get? (s.nextId + 1) = none := by
  cases hget : (s.connections c).pending.get? (s.nextId + 1) with
  | none => rfl
  | some j =>
      obtain ⟨call, hj, -, hc, hid⟩ := (h.pending c _ j).mp hget
      have hle := (h.numbered j call c hj hc).2.1
      omega

theorem Inv.requests_fresh (h : Inv s) (c : ℕ) {r : Request}
    (hr : r ∈ requests (s.connections c).toServer.written) : r.id ≠ s.nextId + 1 := by
  obtain ⟨j, call, hj, hc, rfl⟩ := (h.connections c).made r hr
  have hle := (h.numbered j call c hj hc).2.1
  simp only [Call.asRequest]
  omega

/-- **A call is registered**, and its request is written or not. -/
theorem Inv.register (h : Inv s) (hcall : s.calls i = some call) (hnone : call.connection = none)
    (hlt : c < s.opened) (hreceiving : (s.connections c).receiving = true)
    {toServer : Line format}
    (hline : toServer = (s.connections c).toServer ∨ ∃ f,
      frame .request (s.identify call c).method.index (s.identify call c).callId
        (s.identify call c).request = .ok f ∧ toServer = (s.connections c).toServer.write f) :
    Inv (s.register i (s.identify call c) c toServer) := by
  refine Inv.congr (s := ({ s.setConnection c { s.connections c with
      pending := (s.connections c).pending.set (s.nextId + 1) i, toServer := toServer } with
        nextId := s.nextId + 1 } : State).setCall i
      { s.identify call c with phase := .drain }) ?_ rfl rfl rfl rfl rfl
  refine h.identify hcall hnone hlt hreceiving (fun _ _ hphase => by cases hphase) (fun _ => rfl)
    (fun hinv => ?_) (fun id j => ?_) rfl hreceiving
  · rcases hline with rfl | ⟨f, hf, rfl⟩
    · exact hinv.setPending _
    · refine (hinv.setPending _).write f fun r hr => ?_
      rw [raw_of_frame hf, asRequest_of_kind rfl] at hr
      obtain rfl := Option.some.inj hr
      exact ⟨⟨i, _, Function.update_self .., rfl, rfl⟩, fun r' hr' => h.requests_fresh c hr'⟩
  · rw [Dict.get?_set]
    split
    · next heq =>
        subst heq
        rw [h.pending_fresh c]
        constructor
        · intro hj
          exact .inr ⟨rfl, (Option.some.inj hj).symm, rfl⟩
        · rintro (hj | ⟨-, rfl, -⟩)
          · cases hj
          · rfl
    · next hne =>
        constructor
        · exact .inl
        · rintro (hj | ⟨rfl, -, -⟩)
          · exact hj
          · exact absurd rfl hne

/-- **A call goes on with a connection.** -/
theorem Inv.send (h : Inv s) (hcall : s.calls i = some call) (hnone : call.connection = none)
    (hlt : c < s.opened) (hreceiving : (s.connections c).receiving = true)
    (fails : Option String) : Inv (s.send i call c fails) := by
  unfold State.send
  dsimp only
  split
  · next exception _ =>
      refine Inv.congr (s := ({ s.setConnection c { s.connections c with
          pending := (s.connections c).pending.erase (s.nextId + 1) } with
            nextId := s.nextId + 1 } : State).setCall i
          { s.identify call c with phase := .ended (.raised exception) }) ?_ rfl rfl rfl rfl rfl
      refine h.identify hcall hnone hlt hreceiving (fun _ _ hphase => by cases hphase)
        (fun hended => by cases hended) (fun hinv => hinv.setPending _) (fun id j => ?_) rfl
        hreceiving
      rw [Dict.get?_erase]
      split
      · next heq =>
          subst heq
          rw [h.pending_fresh c]
          constructor
          · exact .inl
          · rintro (hj | ⟨-, -, hflight⟩)
            · exact hj
            · cases hflight
      · constructor
        · exact .inl
        · rintro (hj | ⟨-, -, hflight⟩)
          · exact hj
          · cases hflight
  · next f hf =>
      split
      · exact h.register hcall hnone hlt hreceiving (.inr ⟨f, hf, rfl⟩)
      · exact (h.register hcall hnone hlt hreceiving (.inl rfl)).finish (Function.update_self ..)
          rfl fun _ _ houtcome => by cases houtcome

/-- **A new connection**, with its first frame. -/
theorem Inv.attach (h : Inv s) {f : Frame format} (hf : asRequest f.raw = none) :
    Inv { s.setConnection s.opened
        { Connection.fresh with toServer := Connection.fresh.toServer.write f } with
      opened := s.opened + 1
      current := some s.opened } := by
  let conn : Connection := { Connection.fresh with toServer := Connection.fresh.toServer.write f }
  let t : State := { s.setConnection s.opened conn with
    opened := s.opened + 1
    current := some s.opened }
  change Inv t
  have hself : t.connections s.opened = conn := Function.update_self ..
  have hother : ∀ c, c ≠ s.opened → t.connections c = s.connections c :=
    fun c hc => Function.update_of_ne hc ..
  have hne : ∀ i call c, s.calls i = some call → call.connection = some c → c ≠ s.opened :=
    fun i call c hcall hc => Nat.ne_of_lt (h.numbered i call c hcall hc).2.2
  refine ⟨fun c => ?_, fun i call c hcall hc => ?_, h.distinct, h.placed, fun c id i => ?_,
    fun i call status response hcall hshows => ?_, fun c i call hfalse hcall hflight hc => ?_,
    fun c hc => ?_⟩
  · by_cases hc : c = s.opened
    · rw [hc, hself]
      refine Connection.Inv.fresh.write f fun r hr => ?_
      rw [hf] at hr
      cases hr
    · rw [hother c hc]
      exact h.connections c
  · obtain ⟨hpos, hle, hlt⟩ := h.numbered i call c hcall hc
    exact ⟨hpos, hle, Nat.lt_succ_of_lt hlt⟩
  · by_cases hc : c = s.opened
    · rw [hc, hself]
      constructor
      · intro hget
        cases hget
      · rintro ⟨call, hcall, -, hc', -⟩
        exact absurd rfl (hne i call _ hcall hc')
    · rw [hother c hc]
      exact h.pending c id i
  · obtain ⟨c, hc, hmem⟩ := h.replies i call status response hcall hshows
    refine ⟨c, hc, ?_⟩
    rw [hother c (hne i call c hcall hc)]
    exact hmem
  · rw [hother c (hne i call c hcall hc)] at hfalse
    exact h.lost c i call hfalse hcall hflight hc
  · obtain rfl := Option.some.inj hc
    exact ⟨congrArg Connection.receiving hself, Nat.lt_succ_self _⟩

theorem asRequest_raw {kind : Kind} {code callId : ℕ} {payload : List UInt8} {f : Frame format}
    (hf : frame kind code callId payload = .ok f) (hkind : kind ≠ .request) :
    asRequest f.raw = none := by
  rw [raw_of_frame hf]
  exact if_neg hkind

/-- **A call has the lock**: it goes on with a connection, opens one, or ends. -/
theorem Inv.connect (h : Inv s) (hcall : s.calls i = some call) (hphase : call.phase = .lock)
    (fails : Option String) : Inv (s.connect i call fails) := by
  have hended : call.isEnded = false := by rw [Call.isEnded, hphase]
  have hflight : call.inFlight = false := by rw [Call.inFlight, hphase]
  have hnone := h.connection_none hcall hended hflight
  unfold State.connect
  split
  · exact h.finish hcall hended fun _ _ houtcome => by cases houtcome
  · split
    · next c hc =>
        obtain ⟨hreceiving, hlt⟩ := h.current c hc
        exact h.send hcall hnone hlt hreceiving fails
    · split
      · refine Inv.congr (s := s.setCall i { call with phase := .opening }) ?_ rfl rfl rfl rfl rfl
        refine h.setCall hcall ⟨rfl, rfl, hflight.symm, fun _ => hended⟩ ?_ id
        rintro status response (hfuture | hphase')
        · exact h.replies i call status response hcall (.inl hfuture)
        · cases hphase'
      · exact h.finish hcall hended fun _ _ houtcome => by cases houtcome

theorem Inv.sendCancel (h : Inv s) (call : Call) (fails : Bool) : Inv (s.sendCancel call fails) := by
  unfold State.sendCancel
  split
  · exact h
  · next c _ =>
      dsimp only
      split
      · exact h
      · split
        · exact h.setConnection _ (h.connections c).closeServer (fun _ => rfl) (fun _ ha => ha) .inl
        · split
          · next f hf =>
              refine h.setConnection _ ((h.connections c).write f fun r hr => ?_) (fun _ => rfl)
                (fun _ ha => ha) .inl
              rw [asRequest_raw hf (by decide)] at hr
              cases hr
          · exact h

theorem calls_sendCancel (s : State) (call : Call) (fails : Bool) :
    (s.sendCancel call fails).calls = s.calls := by
  unfold State.sendCancel
  split
  · rfl
  · dsimp only
    split
    · rfl
    · split
      · rfl
      · split <;> rfl

/-- **A call that wakes** ends with what its future has. -/
theorem Inv.wake (h : Inv s) (hcall : s.calls i = some call) (hended : call.isEnded = false)
    (hwake : s.wake i call = some t) : Inv t := by
  unfold State.wake at hwake
  split at hwake
  · next hfuture =>
      obtain rfl := Option.some.inj hwake
      refine h.finish hcall hended fun status response houtcome => ?_
      obtain ⟨rfl, rfl⟩ := Outcome.reply.inj houtcome
      exact hfuture
  · obtain rfl := Option.some.inj hwake
    exact h.finish hcall hended fun _ _ houtcome => by cases houtcome
  · cases hwake
  · cases hwake

theorem fail_leaves (call : Call) (error : RpcError) : call.Leaves (call.fail error) ∧
    (∀ status response, (call.fail error).Shows status response → call.Shows status response) ∧
    (call.fail error).future ≠ .waiting := by
  unfold Call.fail
  split
  · refine ⟨⟨rfl, rfl, rfl, id⟩, ?_, fun h => by cases h⟩
    rintro status response (hfuture | hphase)
    · cases hfuture
    · exact .inr hphase
  · next hne => exact ⟨⟨rfl, rfl, rfl, id⟩, fun _ _ => id, hne⟩

theorem Inv.any_pending (h : Inv s) (hcall : s.calls i = some call) :
    (s.connections c).pending.entries.any (fun entry => entry.2 = i) = true ↔
      call.inFlight = true ∧ call.connection = some c := by
  rw [List.any_eq_true]
  constructor
  · rintro ⟨⟨id, j⟩, hmem, hj⟩
    obtain rfl : j = i := of_decide_eq_true hj
    obtain ⟨call', hcall', hflight, hc, -⟩ := (h.pending c id j).mp (Dict.get?_eq_some_iff.mpr hmem)
    obtain rfl := Option.some.inj (hcall.symm.trans hcall')
    exact ⟨hflight, hc⟩
  · rintro ⟨hflight, hc⟩
    refine ⟨(call.callId, i), Dict.get?_eq_some_iff.mp ?_, decide_eq_true rfl⟩
    exact (h.pending c _ i).mpr ⟨call, hcall, hflight, hc, rfl⟩

/-- **The read loop of a connection ends**: what waits on it fails. -/
theorem Inv.lose (h : Inv s) (c : ℕ) (error : RpcError) : Inv (s.lose c error) := by
  let g : ℕ → Call → Call := fun i call =>
    if (s.connections c).pending.entries.any (fun entry => entry.2 = i) then call.fail error
    else call
  let t : State := { s with
    calls := fun i => (s.calls i).map (g i)
    current := if s.current = some c then none else s.current }
  have hcurrent : ∀ c', t.current = some c' → s.current = some c' ∧ c' ≠ c := by
    intro c' hc'
    change (if s.current = some c then none else s.current) = some c' at hc'
    split at hc'
    · cases hc'
    · next hne =>
        refine ⟨hc', ?_⟩
        rintro rfl
        exact hne hc'
  have ht : Inv t := by
    refine h.mapCalls (fun _ => rfl) rfl rfl rfl (fun c' hc' => (hcurrent c' hc').1)
      (fun i call hcall => ?_) (fun i call status response hcall hshows => ?_)
      (fun i call hcall hfuture => ?_)
    · change call.Leaves (if _ then _ else _)
      split
      · exact (fail_leaves call error).1
      · exact ⟨rfl, rfl, rfl, id⟩
    · refine h.replies i call status response hcall ?_
      change Call.Shows (if _ then _ else _) status response at hshows
      split at hshows
      · exact (fail_leaves call error).2.1 status response hshows
      · exact hshows
    · change Call.future (if _ then _ else _) = .waiting at hfuture
      split at hfuture
      · exact absurd hfuture (fail_leaves call error).2.2
      · exact hfuture
  refine ht.setConnection (c := c) { s.connections c with
    receiving := false, toServer := (s.connections c).toServer.close } ?_ (fun _ => rfl)
    (fun _ ha => ha) fun _ => .inr ⟨fun hc => (hcurrent c hc).2 rfl, ?_⟩
  · exact (ht.connections c).closeServer.keep (ht.connections c).closeServer.toServer
      (ht.connections c).toClient rfl rfl rfl rfl rfl rfl
  · intro i call' hcall' hflight hc hfuture
    obtain ⟨call, hcall, rfl⟩ := Option.map_eq_some_iff.mp hcall'
    change Call.future (if _ then _ else _) = .waiting at hfuture
    split at hfuture
    · exact (fail_leaves call error).2.2 hfuture
    · next hany =>
        have hg : g i call = call := if_neg hany
        rw [hg] at hflight hc
        exact hany ((h.any_pending hcall).mpr ⟨hflight, hc⟩)

theorem resolve_leaves (call : Call) (status : ℕ) (response : List UInt8) :
    call.Leaves (call.resolve status response) ∧
    (∀ status' response', (call.resolve status response).Shows status' response' →
      call.Shows status' response' ∨ (status', response') = (status, response)) ∧
    ((call.resolve status response).future = .waiting → call.future = .waiting) := by
  unfold Call.resolve
  split
  · next hwaiting =>
      refine ⟨⟨rfl, rfl, rfl, id⟩, ?_, fun _ => hwaiting⟩
      rintro status' response' (hfuture | hphase)
      · obtain ⟨rfl, rfl⟩ := Future.result.inj hfuture
        exact .inr rfl
      · exact .inl (.inr hphase)
  · exact ⟨⟨rfl, rfl, rfl, id⟩, fun _ _ hshows => .inl hshows, id⟩

theorem Inv.setClient (h : Inv s) {line : Line format}
    (hwritten : line.written = (s.connections c).toClient.written)
    (hline : ∃ queue, line.Holds queue) :
    Inv (s.setConnection c { s.connections c with toClient := line }) :=
  h.setConnection _ ((h.connections c).keep (h.connections c).toServer hline rfl rfl hwritten rfl rfl
    rfl) (fun _ => rfl) (fun _ ha => ha) .inl

/-- **A frame that is read** goes to the call that has its number. -/
theorem Inv.dispatch (h : Inv s) {hd : Header} {payload : List UInt8}
    (hmem : (hd, payload) ∈ (s.connections c).toClient.written) : Inv (s.receive c hd payload) := by
  unfold State.receive
  split
  · split
    · exact h
    · next j hget =>
        split
        · exact h
        · next call hcall =>
            obtain ⟨hleaves, hshows, hwaiting⟩ := resolve_leaves call hd.code payload
            refine h.setCall hcall hleaves (fun status response hs => ?_) hwaiting
            rcases hshows status response hs with hs | heq
            · exact h.replies j call status response hcall hs
            · obtain ⟨rfl, rfl⟩ := Prod.mk.inj heq
              obtain ⟨a, ha, hraw⟩ := (h.connections c).replies _ hmem
              obtain ⟨rfl, rfl⟩ := Prod.mk.inj hraw
              obtain ⟨call₁, hcall₁, -, hc₁, hid₁⟩ := (h.pending c _ j).mp hget
              obtain rfl := Option.some.inj (hcall.symm.trans hcall₁)
              obtain ⟨k, call₂, hcall₂, hc₂, hreq⟩ :=
                (h.connections c).made_of_read ((h.connections c).answers a ha)
              have hid : call.callId = call₂.callId :=
                hid₁.trans (congrArg Request.id hreq).symm
              obtain rfl := h.distinct j k call call₂ c c hcall hcall₂ hc₁ hc₂ hid
              obtain rfl := Option.some.inj (hcall.symm.trans hcall₂)
              exact ⟨c, hc₁, by rw [hreq]; exact ha⟩
  · exact h.lose c _

theorem resume_eq_some {phase : Phase} {f : Call → Option State}
    (h : s.resume i phase f = some t) :
    ∃ call, s.calls i = some call ∧ call.phase = phase ∧ call.interrupted = none ∧
      f call = some t := by
  obtain ⟨call, hcall, h⟩ := Option.bind_eq_some_iff.mp h
  split at h
  · next hcond => exact ⟨call, hcall, hcond.1, hcond.2, h⟩
  · cases h

theorem Inv.move (h : Inv s) (hcall : s.calls i = some call) (hleaves : call.Leaves call')
    (hfuture : call'.future = call.future)
    (hphase : ∀ status response, call'.phase ≠ .ended (.reply status response)) :
    Inv (s.setCall i call') := by
  refine h.setCall hcall hleaves ?_ fun hwaiting => hfuture ▸ hwaiting
  rintro status response (hresult | hended)
  · exact h.replies i call status response hcall (.inl (hfuture ▸ hresult))
  · exact absurd hended (hphase status response)

theorem interrupt_leaves (call : Call) (kind : Interrupt) :
    call.Leaves (call.interrupt kind) ∧
    (∀ status response, (call.interrupt kind).Shows status response →
      call.Shows status response) ∧
    ((call.interrupt kind).future = .waiting → call.future = .waiting) := by
  refine ⟨⟨rfl, rfl, rfl, id⟩, ?_, fun hfuture => ?_⟩
  · rintro status response (hfuture | hphase)
    · left
      simp only [Call.interrupt] at hfuture
      split at hfuture
      · cases hfuture
      · exact hfuture
    · exact .inr hphase
  · simp only [Call.interrupt] at hfuture
    split at hfuture
    · cases hfuture
    · exact hfuture

/-- **Every move keeps the invariant.** -/
theorem Inv.step (h : Inv s) {move : Move} (hmove : s.apply move = some t) : Inv t := by
  cases move with
  | call i method request timed =>
      simp only [State.apply] at hmove
      obtain ⟨hnone, hmove⟩ | ⟨-, ⟨⟩⟩ := ite_eq_iff.mp hmove
      obtain rfl := Option.some.inj hmove
      exact h.newCall (Option.isNone_iff_eq_none.mp hnone) method request timed
  | acquire i =>
      obtain ⟨call, hcall, hphase, -, hmove⟩ := resume_eq_some hmove
      split at hmove
      · obtain rfl := Option.some.inj hmove
        refine Inv.congr (s := s.setCall i { call with phase := .lock }) ?_ rfl rfl rfl rfl rfl
        refine h.move hcall ⟨rfl, rfl, ?_, fun _ => ?_⟩ rfl fun _ _ hp => by cases hp
        · rw [Call.inFlight, Call.inFlight, hphase]
        · rw [Call.isEnded, hphase]
      · cases hmove
  | connect i fails =>
      obtain ⟨call, hcall, hphase, -, hmove⟩ := resume_eq_some hmove
      split at hmove
      · exact (Option.some.inj hmove) ▸ h.connect hcall hphase fails
      · cases hmove
  | opened i fails =>
      obtain ⟨call, hcall, hphase, -, hmove⟩ := resume_eq_some hmove
      have hended : call.isEnded = false := by rw [Call.isEnded, hphase]
      have hflight : call.inFlight = false := by rw [Call.inFlight, hphase]
      split at hmove
      · next f hf =>
          obtain rfl := Option.some.inj hmove
          have hself : ({ s.setConnection s.opened
              { Connection.fresh with toServer := Connection.fresh.toServer.write f } with
              opened := s.opened + 1
              current := some s.opened } : State).connections s.opened = _ :=
            Function.update_self ..
          exact (h.attach (asRequest_raw hf (by decide))).send hcall
            (h.connection_none hcall hended hflight) (Nat.lt_succ_self _)
            (congrArg Connection.receiving hself) fails
      · cases hmove
  | openFails i text =>
      obtain ⟨call, hcall, hphase, -, hmove⟩ := resume_eq_some hmove
      obtain rfl := Option.some.inj hmove
      exact h.finish hcall (by rw [Call.isEnded, hphase]) fun _ _ houtcome => by cases houtcome
  | drained i =>
      obtain ⟨call, hcall, hphase, -, hmove⟩ := resume_eq_some hmove
      obtain rfl := Option.some.inj hmove
      refine h.move hcall ⟨rfl, rfl, ?_, fun _ => ?_⟩ rfl fun _ _ hp => by cases hp
      · rw [Call.inFlight, Call.inFlight, hphase]
      · rw [Call.isEnded, hphase]
  | drainFails i text =>
      obtain ⟨call, hcall, hphase, -, hmove⟩ := resume_eq_some hmove
      obtain rfl := Option.some.inj hmove
      exact h.finish hcall (by rw [Call.isEnded, hphase]) fun _ _ houtcome => by cases houtcome
  | wake i =>
      obtain ⟨call, hcall, hphase, -, hmove⟩ := resume_eq_some hmove
      exact h.wake hcall (by rw [Call.isEnded, hphase]) hmove
  | interrupt i kind =>
      obtain ⟨call, hcall, hmove⟩ := Option.bind_eq_some_iff.mp hmove
      split at hmove
      · cases hmove
      · obtain rfl := Option.some.inj hmove
        obtain ⟨hleaves, hshows, hwaiting⟩ := interrupt_leaves call kind
        exact h.setCall hcall hleaves (fun status response hs =>
          h.replies i call status response hcall (hshows status response hs)) hwaiting
  | unwind i fails =>
      obtain ⟨call, hcall, hmove⟩ := Option.bind_eq_some_iff.mp hmove
      obtain ⟨-, ⟨⟩⟩ | ⟨hended, hmove⟩ := ite_eq_iff.mp hmove
      obtain ⟨kind, -, rfl⟩ := Option.map_eq_some_iff.mp hmove
      refine (h.sendCancel call fails).finish ((calls_sendCancel s call fails) ▸ hcall)
        (Bool.not_eq_true _ ▸ hended) fun _ _ houtcome => ?_
      cases kind <;> cases houtcome
  | close =>
      simp only [State.apply] at hmove
      split at hmove
      · have hclosed : Inv { s with closed := true } := h.congr rfl rfl rfl rfl rfl
        split at hmove
        · obtain rfl := Option.some.inj hmove
          exact hclosed
        · next c _ =>
            obtain rfl := Option.some.inj hmove
            exact hclosed.setConnection _ (hclosed.connections c).closeServer (fun _ => rfl)
              (fun _ ha => ha) .inl
      · cases hmove
  | arrive c n =>
      simp only [State.apply] at hmove
      split at hmove
      · obtain rfl := Option.some.inj hmove
        obtain ⟨queue, hqueue⟩ := (h.connections c).toClient
        exact h.setClient rfl ⟨queue, hqueue.arrive n⟩
      · cases hmove
  | header c =>
      simp only [State.apply] at hmove
      split at hmove
      · obtain ⟨r, hr, rfl⟩ := Option.map_eq_some_iff.mp hmove
        obtain ⟨queue, hqueue⟩ := (h.connections c).toClient
        obtain ⟨line, rfl, hline⟩ := hqueue.readHeader hr
        exact h.setClient (Line.readHeader_history hr).1 ⟨queue, hline⟩
      · cases hmove
  | receive c =>
      simp only [State.apply] at hmove
      split at hmove
      · obtain ⟨⟨⟨hd, payload⟩, line⟩, hread, rfl⟩ := Option.map_eq_some_iff.mp hmove
        obtain ⟨queue, hqueue⟩ := (h.connections c).toClient
        obtain ⟨f, rest, -, -, hwritten, hhistory, hline⟩ := hqueue.readPayload hread
        refine (h.setClient hwritten ⟨rest, hline⟩).dispatch ?_
        change (hd, payload) ∈ (Function.update s.connections c _ c).toClient.written
        rw [Function.update_self]
        change (hd, payload) ∈ line.written
        rw [hline.written, hhistory]
        exact List.mem_append_left _ (List.mem_append_right _ (List.mem_singleton.mpr rfl))
      · cases hmove
  | lost c =>
      simp only [State.apply] at hmove
      split at hmove
      · exact (Option.some.inj hmove) ▸ h.lose c _
      · cases hmove
  | server c move =>
      simp only [State.apply] at hmove
      split at hmove
      · obtain ⟨conn', hconn', rfl⟩ := Option.map_eq_some_iff.mp hmove
        exact h.server hconn'
      · cases hmove

end Calls

/-- **Every state that is reached keeps the invariant.** -/
theorem inv_of_reachable {s : State} (h : bridge.Reachable s) : Inv s := by
  refine Transition.System.ReachableVia.invariant (fun s hinit => ?_)
    (fun s move t hs _ hstep => hs.step hstep) h
  obtain ⟨token, rfl⟩ := hinit
  exact .initial token

/-! ### What becomes of a call -/

/-- An outcome other than a reply. -/
def Outcome.IsFailure (o : Outcome) : Prop :=
  ∀ status response, o ≠ .reply status response

/-- What becomes of a call in a move: when it has ended it stays, and when its future failed it
can only fail. -/
structure Call.Next (call call' : Call) : Prop where
  ended : call.isEnded = true → call' = call
  failing : ∀ error, call.inFlight = true → call.future = .failed error →
    call'.future = .failed error ∧
      (call'.inFlight = true ∨ ∃ o, call'.phase = .ended o ∧ o.IsFailure)

section Next

variable {s t : State} {i c : ℕ} {call : Call}

theorem Call.Next.refl (call : Call) : call.Next call :=
  ⟨fun _ => rfl, fun _ hflight hfuture => ⟨hfuture, .inl hflight⟩⟩

theorem Call.Next.of_early (hended : call.isEnded = false) (hflight : call.inFlight = false)
    (call' : Call) : call.Next call' := by
  refine ⟨fun h => ?_, fun _ h => ?_⟩
  · rw [hended] at h
    cases h
  · rw [hflight] at h
    cases h

theorem Call.Next.finish (hended : call.isEnded = false) {outcome : Outcome}
    (houtcome : outcome.IsFailure ∨ ∃ status response, call.future = .result status response) :
    call.Next { call with phase := .ended outcome } := by
  refine ⟨fun h => ?_, fun error _ hfuture => ⟨hfuture, .inr ⟨outcome, rfl, ?_⟩⟩⟩
  · rw [hended] at h
    cases h
  · rcases houtcome with hfailure | ⟨status, response, hresult⟩
    · exact hfailure
    · rw [hfuture] at hresult
      cases hresult

theorem next_of_update (hrest : ∀ j, j ≠ i → t.calls j = s.calls j)
    (hi : ∀ call, s.calls i = some call → ∃ call', t.calls i = some call' ∧ call.Next call') (j : ℕ)
    (old : Call) (hold : s.calls j = some old) : ∃ call', t.calls j = some call' ∧ old.Next call' := by
  by_cases hj : j = i
  · subst hj
    exact hi old hold
  · exact ⟨old, (hrest j hj).trans hold, .refl old⟩

theorem next_of_setCall {calls : ℕ → Option Call} (call' : Call) (hcall : s.calls i = some call)
    (ht : t.calls = Function.update calls i (some call')) (hcalls : calls = s.calls)
    (hnext : call.Next call') (j : ℕ) (old : Call) (hold : s.calls j = some old) :
    ∃ new, t.calls j = some new ∧ old.Next new := by
  refine next_of_update (i := i) (fun j hj => ?_) (fun old' hold' => ?_) j old hold
  · rw [ht, hcalls, Function.update_of_ne hj]
  · obtain rfl := Option.some.inj (hcall.symm.trans hold')
    exact ⟨call', by rw [ht, Function.update_self], hnext⟩

theorem calls_forget (s : State) (call : Call) : (s.forget call).calls = s.calls := by
  unfold State.forget
  split <;> rfl

theorem calls_finish (s : State) (i : ℕ) (call : Call) (outcome : Outcome) :
    (s.finish i call outcome).calls =
      Function.update s.calls i (some { call with phase := .ended outcome }) := by
  simp only [State.finish, State.setCall, calls_forget]

theorem calls_send (s : State) (i : ℕ) (call : Call) (c : ℕ) (fails : Option String) :
    ∃ call', (s.send i call c fails).calls = Function.update s.calls i (some call') := by
  unfold State.send
  dsimp only
  split
  · exact ⟨_, calls_finish ..⟩
  · split
    · exact ⟨_, rfl⟩
    · have hregister : (s.register i (s.identify call c) c (s.connections c).toServer).calls =
          Function.update s.calls i (some { s.identify call c with phase := .drain }) := rfl
      rw [calls_finish, hregister, Function.update_idem]
      exact ⟨_, rfl⟩

theorem calls_attach (s : State) (i : ℕ) (call : Call) (f : Frame format)
    (fails : Option String) :
    ∃ call', (s.attach i call f fails).calls = Function.update s.calls i (some call') :=
  calls_send ..

theorem calls_connect (s : State) (i : ℕ) (call : Call) (fails : Option String) :
    ∃ call', (s.connect i call fails).calls = Function.update s.calls i (some call') := by
  unfold State.connect
  split
  · exact ⟨_, calls_finish ..⟩
  · split
    · exact calls_send ..
    · split
      · exact ⟨_, rfl⟩
      · exact ⟨_, calls_finish ..⟩

theorem Inv.next_lose (h : Inv s) (c : ℕ) (error : RpcError) (j : ℕ) (old : Call)
    (hold : s.calls j = some old) : ∃ new, (s.lose c error).calls j = some new ∧ old.Next new := by
  refine ⟨_, congrArg (Option.map _) hold, ?_⟩
  dsimp only
  split
  · next hany =>
      obtain ⟨hflight, -⟩ := (h.any_pending hold).mp hany
      refine ⟨fun hended => ?_, fun e _ hfuture => ?_⟩
      · unfold Call.isEnded at hended
        unfold Call.inFlight at hflight
        split at hended
        · next hphase =>
            rw [hphase] at hflight
            cases hflight
        · cases hended
      · have hne : old.future ≠ .waiting := by
          rw [hfuture]
          exact fun hw => by cases hw
        rw [Call.fail, if_neg hne]
        exact ⟨hfuture, .inl hflight⟩
  · exact .refl old

theorem Call.Next.resolve (hflight : call.inFlight = true) (status : ℕ) (response : List UInt8) :
    call.Next (call.resolve status response) := by
  refine ⟨fun hended => ?_, fun error _ hfuture => ?_⟩
  · unfold Call.isEnded at hended
    unfold Call.inFlight at hflight
    split at hended
    · next hphase =>
        rw [hphase] at hflight
        cases hflight
    · cases hended
  · have hne : call.future ≠ .waiting := by
      rw [hfuture]
      exact fun hw => by cases hw
    rw [Call.resolve, if_neg hne]
    exact ⟨hfuture, .inl hflight⟩

theorem Inv.next_receive (h : Inv s) (c : ℕ) (hd : Header) (payload : List UInt8) (j : ℕ)
    (old : Call) (hold : s.calls j = some old) :
    ∃ new, (s.receive c hd payload).calls j = some new ∧ old.Next new := by
  unfold State.receive
  split
  · split
    · exact ⟨old, hold, .refl old⟩
    · next k hget =>
        split
        · exact ⟨old, hold, .refl old⟩
        · next call hcall =>
            obtain ⟨call₁, hcall₁, hflight, -, -⟩ := (h.pending c _ k).mp hget
            obtain rfl := Option.some.inj (hcall.symm.trans hcall₁)
            exact next_of_setCall _ hcall rfl rfl (.resolve hflight _ _) j old hold
  · exact h.next_lose c _ j old hold

/-- **What becomes of the calls in a move.** -/
theorem Inv.next (h : Inv s) {move : Move} (hmove : s.apply move = some t) (j : ℕ) (old : Call)
    (hold : s.calls j = some old) : ∃ new, t.calls j = some new ∧ old.Next new := by
  have hsame : t.calls = s.calls → ∃ new, t.calls j = some new ∧ old.Next new :=
    fun heq => ⟨old, heq ▸ hold, .refl old⟩
  cases move with
  | call i method request timed =>
      simp only [State.apply] at hmove
      obtain ⟨hnone, hmove⟩ | ⟨-, ⟨⟩⟩ := ite_eq_iff.mp hmove
      obtain rfl := Option.some.inj hmove
      refine next_of_update (i := i) (fun j hj => Function.update_of_ne hj ..)
        (fun call hcall => ?_) j old hold
      rw [hcall] at hnone
      cases hnone
  | acquire i =>
      obtain ⟨call, hcall, hphase, -, hmove⟩ := resume_eq_some hmove
      split at hmove
      · obtain rfl := Option.some.inj hmove
        refine next_of_setCall _ hcall rfl rfl (.of_early ?_ ?_ _) j old hold
        · rw [Call.isEnded, hphase]
        · rw [Call.inFlight, hphase]
      · cases hmove
  | connect i fails =>
      obtain ⟨call, hcall, hphase, -, hmove⟩ := resume_eq_some hmove
      split at hmove
      · obtain rfl := Option.some.inj hmove
        obtain ⟨call', hcalls⟩ := calls_connect s i call fails
        refine next_of_setCall _ hcall hcalls rfl (.of_early ?_ ?_ call') j old hold
        · rw [Call.isEnded, hphase]
        · rw [Call.inFlight, hphase]
      · cases hmove
  | opened i fails =>
      obtain ⟨call, hcall, hphase, -, hmove⟩ := resume_eq_some hmove
      split at hmove
      · obtain rfl := Option.some.inj hmove
        obtain ⟨call', hcalls⟩ := calls_attach s i call _ fails
        refine next_of_setCall _ hcall hcalls rfl (.of_early ?_ ?_ call') j old hold
        · rw [Call.isEnded, hphase]
        · rw [Call.inFlight, hphase]
      · cases hmove
  | openFails i text =>
      obtain ⟨call, hcall, hphase, -, hmove⟩ := resume_eq_some hmove
      obtain rfl := Option.some.inj hmove
      refine next_of_setCall _ hcall (calls_finish ..) rfl (.finish ?_ (.inl ?_)) j old hold
      · rw [Call.isEnded, hphase]
      · exact fun _ _ ho => by cases ho
  | drained i =>
      obtain ⟨call, hcall, hphase, -, hmove⟩ := resume_eq_some hmove
      obtain rfl := Option.some.inj hmove
      refine next_of_setCall { call with phase := .reply } hcall rfl rfl
        ⟨fun hended => ?_, fun _ _ hfuture => ⟨hfuture, .inl rfl⟩⟩ j old hold
      rw [Call.isEnded, hphase] at hended
      cases hended
  | drainFails i text =>
      obtain ⟨call, hcall, hphase, -, hmove⟩ := resume_eq_some hmove
      obtain rfl := Option.some.inj hmove
      refine next_of_setCall _ hcall (calls_finish ..) rfl (.finish ?_ (.inl ?_)) j old hold
      · rw [Call.isEnded, hphase]
      · exact fun _ _ ho => by cases ho
  | wake i =>
      obtain ⟨call, hcall, hphase, -, hmove⟩ := resume_eq_some hmove
      have hended : call.isEnded = false := by rw [Call.isEnded, hphase]
      unfold State.wake at hmove
      split at hmove
      · next status response hfuture =>
          obtain rfl := Option.some.inj hmove
          exact next_of_setCall _ hcall (calls_finish ..) rfl
            (.finish hended (.inr ⟨status, response, hfuture⟩)) j old hold
      · obtain rfl := Option.some.inj hmove
        exact next_of_setCall _ hcall (calls_finish ..) rfl
          (.finish hended (.inl fun _ _ ho => by cases ho)) j old hold
      · cases hmove
      · cases hmove
  | interrupt i kind =>
      obtain ⟨call, hcall, hmove⟩ := Option.bind_eq_some_iff.mp hmove
      obtain ⟨-, ⟨⟩⟩ | ⟨hcond, hmove⟩ := ite_eq_iff.mp hmove
      obtain rfl := Option.some.inj hmove
      refine next_of_setCall (call.interrupt kind) hcall rfl rfl
        ⟨fun hended => absurd (.inl hended) hcond,
          fun error hflight hfuture => ⟨?_, .inl hflight⟩⟩ j old hold
      rw [Call.interrupt]
      dsimp only
      rw [if_neg (fun hand => by rw [hfuture] at hand; cases hand.2), hfuture]
  | unwind i fails =>
      obtain ⟨call, hcall, hmove⟩ := Option.bind_eq_some_iff.mp hmove
      obtain ⟨-, ⟨⟩⟩ | ⟨hended, hmove⟩ := ite_eq_iff.mp hmove
      obtain ⟨kind, -, rfl⟩ := Option.map_eq_some_iff.mp hmove
      refine next_of_setCall _ hcall (calls_finish ..) (calls_sendCancel s call fails)
        (.finish (Bool.not_eq_true _ ▸ hended) (.inl fun _ _ ho => ?_)) j old hold
      cases kind <;> cases ho
  | close =>
      simp only [State.apply] at hmove
      split at hmove
      · split at hmove <;> exact hsame ((Option.some.inj hmove) ▸ rfl)
      · cases hmove
  | arrive c n =>
      simp only [State.apply] at hmove
      split at hmove
      · exact hsame ((Option.some.inj hmove) ▸ rfl)
      · cases hmove
  | header c =>
      simp only [State.apply] at hmove
      split at hmove
      · obtain ⟨r, -, rfl⟩ := Option.map_eq_some_iff.mp hmove
        split
        · exact ⟨old, hold, .refl old⟩
        · exact h.next_lose c _ j old hold
      · cases hmove
  | receive c =>
      have ht := h.step hmove
      simp only [State.apply] at hmove
      split at hmove
      · obtain ⟨⟨⟨hd, payload⟩, line⟩, hread, rfl⟩ := Option.map_eq_some_iff.mp hmove
        obtain ⟨queue, hqueue⟩ := (h.connections c).toClient
        obtain ⟨f, rest, -, -, hwritten, -, hline⟩ := hqueue.readPayload hread
        exact (h.setClient hwritten ⟨rest, hline⟩).next_receive c hd payload j old hold
      · cases hmove
  | lost c =>
      simp only [State.apply] at hmove
      split at hmove
      · exact (Option.some.inj hmove) ▸ h.next_lose c _ j old hold
      · cases hmove
  | server c move =>
      simp only [State.apply] at hmove
      split at hmove
      · obtain ⟨conn', -, rfl⟩ := Option.map_eq_some_iff.mp hmove
        exact ⟨old, hold, .refl old⟩
      · cases hmove

end Next

/-! ### Runs -/

/-- A call has ended with an outcome. -/
def State.EndedWith (s : State) (i : ℕ) (o : Outcome) : Prop :=
  ∃ call, s.calls i = some call ∧ call.phase = .ended o

/-- A call fails: whatever happens, it can end, and only without a reply. -/
def State.Fails (s : State) (i : ℕ) : Prop :=
  ∀ t, bridge.Run s t → (∀ o, t.EndedWith i o → o.IsFailure) ∧
    ∃ u o, bridge.Run t u ∧ u.EndedWith i o

/-- **Calls get their own answers**, in a state. -/
structure Correlated (s : State) : Prop where
  /-- What is read of a connection is what was written, however the bytes arrive. -/
  exact : ∀ c, (s.connections c).toServer.Exact ∧ (s.connections c).toClient.Exact
  /-- A number is the number of one call, over all connections. -/
  distinct : ∀ i j call call' c c', s.calls i = some call → s.calls j = some call' →
    call.connection = some c → call'.connection = some c' → call.callId = call'.callId → i = j
  /-- A reply that a call has was made for its very request, on its connection. -/
  answered : ∀ i call status response, s.calls i = some call → call.Shows status response →
    s.Answered call status response
  /-- What is written, handled and answered on a connection are requests of calls on it. -/
  made : ∀ c r, r ∈ requests (s.connections c).toServer.written ∨
    r ∈ (s.connections c).started ∨ (∃ a ∈ (s.connections c).answers, a.request = r) → s.Made c r
  /-- No request is written twice. -/
  sentOnce : ∀ c, ((requests (s.connections c).toServer.written).map Request.id).Nodup
  /-- No handler is started twice for a request. -/
  startedOnce : ∀ c, ((s.connections c).started.map Request.id).Nodup
  /-- No call waits on a connection that is not read any more. -/
  lost : ∀ c i call, (s.connections c).receiving = false → s.calls i = some call →
    call.isEnded = false → call.connection = some c → call.future ≠ .waiting
  /-- `pending` has entries of calls only that have not ended. -/
  pending : ∀ c id i, (s.connections c).pending.get? id = some i →
    ∃ call, s.calls i = some call ∧ call.isEnded = false ∧ call.connection = some c ∧
      call.callId = id

/-- **What becomes of calls**, from a state on. -/
structure Lasting (s : State) : Prop where
  /-- A call that has ended keeps its outcome. -/
  outcome : ∀ t, bridge.Run s t → ∀ i o, s.EndedWith i o → t.EndedWith i o
  /-- When a connection is no longer read, every call that waits on it fails. -/
  lost : ∀ t move, bridge.step s move t → ∀ c, (s.connections c).receiving = true →
    (t.connections c).receiving = false → ∀ i call, s.calls i = some call →
    call.isEnded = false → call.connection = some c → call.future = .waiting → t.Fails i

section Runs

variable {s t : State} {i c : ℕ} {call : Call}

theorem Call.not_ended_of_inFlight (h : call.inFlight = true) : call.isEnded = false := by
  unfold Call.isEnded
  split
  · next hphase =>
      rw [Call.inFlight, hphase] at h
      cases h
  · rfl

theorem Call.isEnded_of_phase {o : Outcome} (h : call.phase = .ended o) : call.isEnded = true := by
  rw [Call.isEnded, h]

/-- **The invariant gives the answers their calls.** -/
theorem Inv.correlated (h : Inv s) : Correlated s where
  exact c := by
    obtain ⟨queue, hserver⟩ := (h.connections c).toServer
    obtain ⟨queue', hclient⟩ := (h.connections c).toClient
    exact ⟨hserver.exact, hclient.exact⟩
  distinct := h.distinct
  answered := h.replies
  made c r hr := by
    rcases hr with hr | hr | ⟨a, ha, rfl⟩
    · exact (h.connections c).made r hr
    · exact (h.connections c).made_of_read ((h.connections c).started r hr)
    · exact (h.connections c).made_of_read ((h.connections c).answers a ha)
  sentOnce c := (h.connections c).once
  startedOnce c := (h.connections c).startedOnce
  lost c i call hreceiving hcall hended hc := by
    refine h.lost c i call hreceiving hcall ?_ hc
    rw [← h.placed i call hcall hended, hc]
    rfl
  pending c id i hget := by
    obtain ⟨call, hcall, hflight, hc, hid⟩ := (h.pending c id i).mp hget
    exact ⟨call, hcall, Call.not_ended_of_inFlight hflight, hc, hid⟩

/-- A call that can only fail. -/
def State.Failing (s : State) (i : ℕ) : Prop :=
  ∃ call error, s.calls i = some call ∧ call.future = .failed error ∧
    (call.inFlight = true ∨ ∃ o, call.phase = .ended o ∧ o.IsFailure)

theorem Inv.failing_step (h : Inv s) {move : Move} (hmove : s.apply move = some t)
    (hfailing : s.Failing i) : t.Failing i := by
  obtain ⟨call, error, hcall, hfuture, hphase⟩ := hfailing
  obtain ⟨new, hnew, hnext⟩ := h.next hmove i call hcall
  rcases hphase with hflight | ⟨o, ho, hfailure⟩
  · obtain ⟨hfuture', hphase'⟩ := hnext.failing error hflight hfuture
    exact ⟨new, error, hnew, hfuture', hphase'⟩
  · obtain rfl := hnext.ended (Call.isEnded_of_phase ho)
    exact ⟨new, error, hnew, hfuture, .inr ⟨o, ho, hfailure⟩⟩

theorem exists_end {error : RpcError} (hcall : s.calls i = some call)
    (hflight : call.inFlight = true) (hfuture : call.future = .failed error) :
    ∃ t o, bridge.Run s t ∧ t.EndedWith i o := by
  have hended := Call.not_ended_of_inFlight hflight
  have hstep : ∀ {s t : State} {move : Move}, s.apply move = some t → bridge.Run s t :=
    fun hmove => Transition.System.RunVia.tail (.refl _) trivial hmove
  have hfinished : ∀ (s : State) (call : Call) (o : Outcome), (s.finish i call o).EndedWith i o := by
    intro s call o
    refine ⟨{ call with phase := .ended o }, ?_, rfl⟩
    rw [calls_finish, Function.update_self]
  cases hinterrupted : call.interrupted with
  | some kind =>
      have hunwind : s.apply (.unwind i false) =
          some ((s.sendCancel call false).finish i call kind.outcome) := by
        simp only [State.apply, hcall, Option.bind_some, hended, Bool.false_eq_true, if_false,
          hinterrupted, Option.map_some]
      exact ⟨_, _, hstep hunwind, hfinished ..⟩
  | none =>
      -- at the future it ends at once, and at `drain` it goes to the future first
      have hwake : ∀ (s : State) (call : Call), s.calls i = some call → call.phase = .reply →
          call.interrupted = none → call.future = .failed error →
          s.apply (.wake i) = some (s.finish i call (.raised (.rpc error))) := by
        intro s call hcall hphase hinterrupted hfuture
        simp only [State.apply, State.resume, hcall, Option.bind_some, hphase, hinterrupted,
          and_self, if_true, State.wake, hfuture]
      cases hphase : call.phase with
      | reply =>
          exact ⟨_, _, hstep (hwake s call hcall hphase hinterrupted hfuture), hfinished ..⟩
      | drain =>
          have hdrained : s.apply (.drained i) = some (s.setCall i { call with phase := .reply }) := by
            simp only [State.apply, State.resume, hcall, Option.bind_some, hphase, hinterrupted,
              and_self, if_true]
          refine ⟨_, _, (hstep hdrained).trans (hstep (hwake _ { call with phase := .reply }
            (Function.update_self ..) rfl hinterrupted hfuture)), hfinished ..⟩
      | slot | lock | opening | ended o =>
          rw [Call.inFlight, hphase] at hflight
          cases hflight

/-- **A call that can only fail, fails.** -/
theorem Inv.fails (h : Inv s) (hfailing : s.Failing i) : s.Fails i := by
  intro t hrun
  have ht : Inv t ∧ t.Failing i := by
    refine Transition.System.RunVia.preserves (I := fun s => Inv s ∧ s.Failing i)
      (fun s move t hs _ hstep => ⟨hs.1.step hstep, hs.1.failing_step hstep hs.2⟩) hrun
      ⟨h, hfailing⟩
  obtain ⟨call, error, hcall, hfuture, hphase⟩ := ht.2
  constructor
  · rintro o ⟨call', hcall', ho⟩
    obtain rfl := Option.some.inj (hcall.symm.trans hcall')
    rcases hphase with hflight | ⟨o', ho', hfailure⟩
    · rw [Call.inFlight, ho] at hflight
      cases hflight
    · obtain rfl := Phase.ended.inj (ho.symm.trans ho')
      exact hfailure
  · rcases hphase with hflight | ⟨o, ho, -⟩
    · exact exists_end hcall hflight hfuture
    · exact ⟨t, o, .refl t, call, hcall, ho⟩

/-- The connections that are read stay so. -/
def State.KeepsReading (s t : State) : Prop :=
  ∀ c, (s.connections c).receiving = true → (t.connections c).receiving = true

theorem keepsReading_setConnection (s : State) (c : ℕ) (conn : Connection)
    (h : conn.receiving = (s.connections c).receiving) :
    s.KeepsReading (s.setConnection c conn) := by
  intro c' hc'
  by_cases heq : c' = c
  · rw [heq] at hc' ⊢
    change (Function.update s.connections c conn c).receiving = true
    rw [Function.update_self, h]
    exact hc'
  · change (Function.update s.connections c conn c').receiving = true
    rw [Function.update_of_ne heq]
    exact hc'

theorem keepsReading_finish (s : State) (i : ℕ) (call : Call) (o : Outcome) :
    s.KeepsReading (s.finish i call o) := by
  change s.KeepsReading (s.forget call)
  unfold State.forget
  split
  · exact fun _ hc => hc
  · exact keepsReading_setConnection s _ _ rfl

theorem keepsReading_send (s : State) (i : ℕ) (call : Call) (c : ℕ) (fails : Option String) :
    s.KeepsReading (s.send i call c fails) := by
  unfold State.send
  dsimp only
  split
  · next exception _ =>
      exact fun c' hc' => keepsReading_finish s i (s.identify call c) (.raised exception) c' hc'
  · split
    · exact keepsReading_setConnection s c _ rfl
    · intro c' hc'
      refine keepsReading_finish _ i _ _ c' ?_
      exact keepsReading_setConnection s c { s.connections c with
        pending := (s.connections c).pending.set (s.nextId + 1) i } rfl c' hc'

theorem keepsReading_connect (s : State) (i : ℕ) (call : Call) (fails : Option String) :
    s.KeepsReading (s.connect i call fails) := by
  unfold State.connect
  split
  · exact keepsReading_finish s i _ _
  · split
    · exact keepsReading_send s i call _ fails
    · split
      · exact fun _ hc => hc
      · exact keepsReading_finish s i _ _

theorem keepsReading_attach (s : State) (i : ℕ) (call : Call) (f : Frame format)
    (fails : Option String) : s.KeepsReading (s.attach i call f fails) := by
  intro c hc
  refine keepsReading_send _ i call s.opened fails c ?_
  by_cases heq : c = s.opened
  · rw [heq]
    change (Function.update s.connections s.opened _ s.opened).receiving = true
    rw [Function.update_self]
    rfl
  · change (Function.update s.connections s.opened _ c).receiving = true
    rw [Function.update_of_ne heq]
    exact hc

theorem keepsReading_sendCancel (s : State) (call : Call) (fails : Bool) :
    s.KeepsReading (s.sendCancel call fails) := by
  unfold State.sendCancel
  split
  · exact fun _ hc => hc
  · dsimp only
    split
    · exact fun _ hc => hc
    · split
      · exact keepsReading_setConnection s _ _ rfl
      · split
        · exact keepsReading_setConnection s _ _ rfl
        · exact fun _ hc => hc

theorem receive_cases (s : State) (c : ℕ) (hd : Header) (payload : List UInt8) :
    s.KeepsReading (s.receive c hd payload) ∨
      ∃ error, s.receive c hd payload = s.lose c error := by
  unfold State.receive
  split
  · left
    split
    · exact fun _ hc => hc
    · split <;> exact fun _ hc => hc
  · exact .inr ⟨_, rfl⟩

theorem Inv.failing_lose (h : Inv s) (hcall : s.calls i = some call)
    (hflight : call.inFlight = true) (hc : call.connection = some c)
    (hwaiting : call.future = .waiting) (error : RpcError) : (s.lose c error).Failing i := by
  refine ⟨call.fail error, error, ?_, ?_, .inl ?_⟩
  · refine (congrArg (Option.map _) hcall).trans ?_
    rw [Option.map_some, if_pos ((h.any_pending hcall).mpr ⟨hflight, hc⟩)]
  · rw [Call.fail, if_pos hwaiting]
  · rw [Call.fail, if_pos hwaiting]
    exact hflight

theorem receiving_lose {c' : ℕ} {error : RpcError} (hc : (s.connections c).receiving = true)
    (hfalse : ((s.lose c' error).connections c).receiving = false) : c' = c := by
  by_contra hne
  change (Function.update s.connections c' _ c).receiving = false at hfalse
  rw [Function.update_of_ne (Ne.symm hne), hc] at hfalse
  cases hfalse

/-- **A connection that is no longer read** fails what waits on it. -/
theorem Inv.failing_of_lost (h : Inv s) {move : Move} (hmove : s.apply move = some t)
    (hreads : (s.connections c).receiving = true) (hlost : (t.connections c).receiving = false)
    (hcall : s.calls i = some call) (hflight : call.inFlight = true)
    (hc : call.connection = some c) (hwaiting : call.future = .waiting) : t.Failing i := by
  have hkeeps : s.KeepsReading t → t.Failing i := by
    intro hkeeps
    rw [hkeeps c hreads] at hlost
    cases hlost
  cases move with
  | call i method request timed =>
      simp only [State.apply] at hmove
      split at hmove
      · exact hkeeps ((Option.some.inj hmove) ▸ fun _ hc => hc)
      · cases hmove
  | acquire i =>
      obtain ⟨call, -, -, -, hmove⟩ := resume_eq_some hmove
      split at hmove
      · exact hkeeps ((Option.some.inj hmove) ▸ fun _ hc => hc)
      · cases hmove
  | connect i fails =>
      obtain ⟨call, -, -, -, hmove⟩ := resume_eq_some hmove
      split at hmove
      · exact hkeeps ((Option.some.inj hmove) ▸ keepsReading_connect s i call fails)
      · cases hmove
  | opened i fails =>
      obtain ⟨call, -, -, -, hmove⟩ := resume_eq_some hmove
      split at hmove
      · exact hkeeps ((Option.some.inj hmove) ▸ keepsReading_attach s i call _ fails)
      · cases hmove
  | openFails i text =>
      obtain ⟨call, -, -, -, hmove⟩ := resume_eq_some hmove
      exact hkeeps ((Option.some.inj hmove) ▸ keepsReading_finish s i call _)
  | drained i =>
      obtain ⟨call, -, -, -, hmove⟩ := resume_eq_some hmove
      exact hkeeps ((Option.some.inj hmove) ▸ fun _ hc => hc)
  | drainFails i text =>
      obtain ⟨call, -, -, -, hmove⟩ := resume_eq_some hmove
      exact hkeeps ((Option.some.inj hmove) ▸ keepsReading_finish s i call _)
  | wake i =>
      obtain ⟨call, -, -, -, hmove⟩ := resume_eq_some hmove
      unfold State.wake at hmove
      split at hmove
      · exact hkeeps ((Option.some.inj hmove) ▸ keepsReading_finish s i call _)
      · exact hkeeps ((Option.some.inj hmove) ▸ keepsReading_finish s i call _)
      · cases hmove
      · cases hmove
  | interrupt i kind =>
      obtain ⟨call, -, hmove⟩ := Option.bind_eq_some_iff.mp hmove
      split at hmove
      · cases hmove
      · exact hkeeps ((Option.some.inj hmove) ▸ fun _ hc => hc)
  | unwind i fails =>
      obtain ⟨call, -, hmove⟩ := Option.bind_eq_some_iff.mp hmove
      split at hmove
      · cases hmove
      · obtain ⟨kind, -, rfl⟩ := Option.map_eq_some_iff.mp hmove
        exact hkeeps fun c hc => keepsReading_finish _ i call _ c
          (keepsReading_sendCancel s call fails c hc)
  | close =>
      simp only [State.apply] at hmove
      split at hmove
      · split at hmove
        · exact hkeeps ((Option.some.inj hmove) ▸ fun _ hc => hc)
        · exact hkeeps ((Option.some.inj hmove) ▸
            keepsReading_setConnection { s with closed := true } _ _ rfl)
      · cases hmove
  | arrive c' n =>
      simp only [State.apply] at hmove
      split at hmove
      · exact hkeeps ((Option.some.inj hmove) ▸ keepsReading_setConnection s c' _ rfl)
      · cases hmove
  | header c' =>
      simp only [State.apply] at hmove
      split at hmove
      · obtain ⟨r, -, rfl⟩ := Option.map_eq_some_iff.mp hmove
        split
        · exact hkeeps (keepsReading_setConnection s c' _ rfl)
        · obtain rfl := receiving_lose hreads hlost
          exact h.failing_lose hcall hflight hc hwaiting _
      · cases hmove
  | receive c' =>
      simp only [State.apply] at hmove
      split at hmove
      · obtain ⟨⟨⟨hd, payload⟩, line⟩, hread, rfl⟩ := Option.map_eq_some_iff.mp hmove
        obtain ⟨queue, hqueue⟩ := (h.connections c').toClient
        obtain ⟨f, rest, -, -, hwritten, -, hline⟩ := hqueue.readPayload hread
        have hline' := keepsReading_setConnection s c' { s.connections c' with toClient := line } rfl
        rcases receive_cases (s.setConnection c' { s.connections c' with toClient := line }) c' hd
          payload with hread' | ⟨error, herror⟩
        · exact hkeeps fun c hc => hread' c (hline' c hc)
        · change ((State.receive _ c' hd payload).connections c).receiving = false at hlost
          change (State.receive _ c' hd payload).Failing i
          rw [herror] at hlost ⊢
          obtain rfl := receiving_lose (hline' c hreads) hlost
          exact (h.setClient hwritten ⟨rest, hline⟩).failing_lose hcall hflight hc hwaiting _
      · cases hmove
  | lost c' =>
      simp only [State.apply] at hmove
      split at hmove
      · obtain rfl := Option.some.inj hmove
        obtain rfl := receiving_lose hreads hlost
        exact h.failing_lose hcall hflight hc hwaiting _
      · cases hmove
  | server c' move =>
      simp only [State.apply] at hmove
      split at hmove
      · obtain ⟨conn', hconn', rfl⟩ := Option.map_eq_some_iff.mp hmove
        exact hkeeps (keepsReading_setConnection s c' _ (Connection.leaves_apply hconn').receiving)
      · cases hmove

/-- **The invariant gives what becomes of calls.** -/
theorem Inv.lasting (h : Inv s) : Lasting s where
  outcome t hrun i o hended := by
    have ht : Inv t ∧ t.EndedWith i o := by
      refine Transition.System.RunVia.preserves (I := fun s => Inv s ∧ s.EndedWith i o)
        (fun s move t hs _ hstep => ⟨hs.1.step hstep, ?_⟩) hrun ⟨h, hended⟩
      obtain ⟨call, hcall, ho⟩ := hs.2
      obtain ⟨new, hnew, hnext⟩ := hs.1.next hstep i call hcall
      exact ⟨call, hnext.ended (Call.isEnded_of_phase ho) ▸ hnew, ho⟩
    exact ht.2
  lost t move hmove c hreads hlost i call hcall hended hc hwaiting := by
    have hflight : call.inFlight = true := by
      rw [← h.placed i call hcall hended, hc]
      rfl
    exact (h.step hmove).fails (h.failing_of_lost hmove hreads hlost hcall hflight hc hwaiting)

end Runs

/-- **Calls get their own answers**: in every state that a channel and its server reach, whatever
is called, cancelled, lost, opened again and closed, and however the bytes arrive. -/
theorem calls_get_own_answers {s : State} (h : bridge.Reachable s) : Correlated s ∧ Lasting s :=
  ⟨(inv_of_reachable h).correlated, (inv_of_reachable h).lasting⟩

/-- What can be seen of a channel. -/
structure View where
  /-- Where the first two calls are, with their numbers. -/
  calls : List (Option (Phase × ℕ))
  /-- The handlers that the first two connections started. -/
  started : List (List Request)
  opened : ℕ
  deriving DecidableEq

/-- The view of a channel. -/
def State.view (s : State) : View where
  calls := [0, 1].map fun i => (s.calls i).map fun call => (call.phase, call.callId)
  started := [0, 1].map fun c => (s.connections c).started
  opened := s.opened

/-- A call is cancelled and its reply comes late; the connection is lost, and the next call gets
its own reply on another one. -/
def sampleMoves : List Move :=
  [.call 0 .heartbeat [1] false, .connect 0 none, .opened 0 none, .server 0 (.arrive 10),
    .server 0 (.arrive 100), .server 0 .header, .server 0 .read, .server 0 .header,
    .server 0 .read, .server 0 (.dispatch 1 true), .drained 0, .interrupt 0 .cancel,
    .unwind 0 false, .server 0 (.answer 1 (.returned [7])), .arrive 0 3, .arrive 0 100, .header 0,
    .receive 0, .lost 0, .call 1 .exec [2] true, .acquire 1, .connect 1 none, .opened 1 none,
    .server 1 (.arrive 100), .server 1 .header, .server 1 .read, .server 1 .header,
    .server 1 .read, .server 1 (.dispatch 2 true), .server 1 (.answer 2 (.returned [8])),
    .drained 1, .arrive 1 100, .header 1, .receive 1, .wake 1]

/-- A run with two connections. -/
theorem calls_get_own_answers_sample : ∃ s : State,
    s.view = ⟨[some (.ended .cancelled, 1), some (.ended (.reply 0 [8]), 2)],
      [[⟨1, 5, [1]⟩], [⟨2, 6, [2]⟩]], 2⟩ ∧ Correlated s ∧ Lasting s := by
  have hview : (sampleMoves.foldlM State.apply (.initial "t")).map State.view =
      some ⟨[some (.ended .cancelled, 1), some (.ended (.reply 0 [8]), 2)],
        [[⟨1, 5, [1]⟩], [⟨2, 6, [2]⟩]], 2⟩ := by
    decide +kernel
  obtain ⟨s, hmoves, hs⟩ := Option.map_eq_some_iff.mp hview
  refine ⟨s, hs, calls_get_own_answers ⟨.initial "t", ⟨"t", rfl⟩, ?_⟩⟩
  exact Transition.System.RunVia.foldlM (fun _ _ _ hstep => hstep) (fun _ _ _ => trivial) hmoves

end Kirakira.Bridge
