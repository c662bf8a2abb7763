import SimpleDfs.Rpc.Acknowledged
import SimpleDfs.Rpc.RoundTrip
import SimpleDfs.Rpc.Truncation

/-!
# Calls from end to end

Any number of clients, a server that is restarted at any time, and a network between them. A client
is the `rpcc` of `Rpc.Acknowledged`, here with the messages that it packs and the replies that it
takes in; clients are named by their nonces. The server is the one of `Rpc.AtMostOnce`, with
`rpcs::dispatch` in full: what it unpacks from a request, what it answers, and when. A restart gives
the server a new nonce and loses all that it remembers. Messages are the bytes that were marshalled.
Each of them may arrive at any later time, more than once, or never.

A handler may return anything that is not negative, and takes any time for it; only the handler of
`bind` is fixed, it returns the nonce of the server. `reply_authentic` says that a call that returns
such a value was handled: a handler of the instance that the client was bound to has read the
arguments of the call, and what it has returned is what the caller reads. Nothing is assumed about
the order in which messages come, nor about what the window recognises; but a reply has to be sent
before its buffer is freed. The window gives up a buffer as soon as another request of the client
says so, also while a thread of `rpcs::dispatch` is sending it.
-/

namespace SimpleDfs.Rpc

/-! ## The parties -/

/-- `rpc_const::timeout_failure`. -/
def timeoutFailure : ℤ := -1

/-- `rpc_const::atmostonce_failure`. -/
def atmostonceFailure : Int32 := -4

/-- `rpc_const::oldsrv_failure`. -/
def oldsrvFailure : Int32 := -5

/-- The number of a call, as the server and `got_pdu` use it: an `unsigned`. -/
def xidOf (xid : Int32) : ℕ := xid.toUInt32.toNat

/-- The number of a call, as a header has it: an `int`. -/
def packXid (xid : ℕ) : Int32 := (UInt32.ofNat xid).toInt32

/-- What `checkduplicate_and_update` is given of a header. -/
def ReqHeader.request (h : ReqHeader) : Request := ⟨xidOf h.xid, xidOf h.xid_rep⟩

/-- A client: its `rpcc`, and what the threads in `call1` have. -/
structure RpcClient where
  /-- The state that `m_` protects. -/
  rpcc : Rpcc
  /-- The server that the client is bound to. -/
  srv_nonce_ : UInt32
  /-- The procedure of each call. -/
  proc : ℕ → Int32
  /-- What `got_pdu` has put into the `unmarshall` of each call. -/
  un : ℕ → Option Unmarshall
  /-- The nonces with which calls of `bind` have come back, and which are not stored yet. -/
  binds : List UInt32

/-- A request that `call1` has packed. -/
structure SentCall where
  /-- The header. -/
  header : ReqHeader
  /-- The arguments. -/
  args : List Val
  /-- The message. -/
  pdu : Bytes

/-- A request whose handler is started. -/
structure Handling where
  /-- The header. -/
  header : ReqHeader
  /-- The `unmarshall` that the handler is given. -/
  req : Unmarshall
  deriving DecidableEq, Repr

/-- The client and the number of the call. -/
def Handling.key (j : Handling) : ℕ × ℕ := (j.header.clt_nonce.toNat, xidOf j.header.xid)

/-- A handler that has returned. -/
structure Handled where
  /-- The instance of the server. -/
  nonce : UInt32
  /-- The request. -/
  job : Handling
  /-- What it returned. -/
  ret : Int32
  /-- What it marshalled. -/
  result : List Val

/-- A call that has returned. -/
structure ReturnedCall where
  /-- The client. -/
  clt_nonce : UInt32
  /-- The number of the call. -/
  xid : ℕ
  /-- What `call1` returned. -/
  ret : ℤ
  /-- The `unmarshall` of the reply. -/
  un : Option Unmarshall

/-- A thread of the server in `c->send(b1, sz1)`, up to the last byte. -/
structure Sending where
  /-- The client. -/
  clt_nonce : UInt32
  /-- The number of the call. -/
  xid : ℕ
  /-- What the buffer held when the thread got it. -/
  b1 : Bytes
  /-- Another request of the client has had the buffer freed. -/
  freed : Bool
  deriving DecidableEq

/-- The buffer of a thread after another request: it is freed if the window has it no more. A client
without a nonce has no window, the buffer is the thread's own. -/
def Sending.after (p : Sending) (clt : UInt32) (w : List ReplyT) : Sending :=
  if p.clt_nonce = clt ∧ clt ≠ 0 ∧ ∀ r ∈ w, r.xid = p.xid → r.buf ≠ some p.b1 then
    { p with freed := true }
  else p

/-- The clients, the server and the network, with what has happened so far. -/
structure RpcNet where
  /-- The clients, by their nonces. -/
  client : UInt32 → RpcClient
  /-- The nonce of the server. -/
  nonce_ : UInt32
  /-- The windows of the server. -/
  server : State
  /-- The handlers that the server runs. -/
  serving : List Handling
  /-- The threads of the server that are sending a reply from a buffer. -/
  sending : List Sending
  /-- The replies that were sent to each client. -/
  replies : List (UInt32 × Bytes)
  /-- The requests that were packed, the latest first. -/
  calls : List SentCall
  /-- The nonces of the server so far, the latest first. -/
  nonces : List UInt32
  /-- The handlers started by each instance of the server, the latest first. -/
  started : List (UInt32 × Handling)
  /-- The handlers that have returned. -/
  handled : List Handled
  /-- The calls that have returned. -/
  returned : List ReturnedCall

/-- What can happen next. -/
inductive NetEvent where
  /-- A thread of a client makes a call. -/
  | call (clt_nonce : UInt32) (proc : Int32) (args : List Val)
  /-- A request comes to the server. -/
  | dispatch (b : Bytes)
  /-- A handler returns. -/
  | handled (j : Handling) (ret : Int32) (result : List Val)
  /-- A thread of the server has sent these bytes. -/
  | sent (p : Sending) (b : Bytes)
  /-- The server is restarted. -/
  | restart (nonce : UInt32)
  /-- A reply comes to a client. -/
  | gotPdu (clt_nonce : UInt32) (b : Bytes)
  /-- A call has its reply, or was told to stop, or its deadline is over. -/
  | returns (clt_nonce : UInt32) (xid : ℕ)
  /-- `bind` stores the nonce. -/
  | bound (clt_nonce nonce : UInt32)
  /-- `cancel`, up to the wait for the calls. -/
  | cancel (clt_nonce : UInt32)

/-- The conditions under which `call1` returns at once. -/
def Rpcc.Refuses (s : Rpcc) (proc : ℕ) : Prop :=
  ((proc ≠ bind ∧ s.bind_done_ = false) ∨ (proc = bind ∧ s.bind_done_ = true)) ∨
    s.destroy_wait_ = true

instance (s : Rpcc) (proc : ℕ) : Decidable (s.Refuses proc) := inferInstanceAs (Decidable (_ ∨ _))

/-- `add_reply`, when a handler has returned. -/
def State.recordReply (s : State) (clt xid : ℕ) (b : Bytes) : State :=
  { s with
    running := s.running.erase (clt, xid)
    reply_window_ := if clt = 0 then s.reply_window_
      else Function.update s.reply_window_ clt (some (addReply (s.window clt) xid b b.length)) }

/-- The server starts again. -/
def State.restarted (s : State) : State :=
  { s with reply_window_ := fun _ => none, running := [], started := [], opener := fun _ => none }

namespace RpcNet

/-- The state at the start: the server has a nonce, and the clients are new. -/
def initial (nonce : UInt32) : RpcNet where
  client _ := ⟨.new, 0, fun _ => 0, fun _ => none, []⟩
  nonce_ := nonce
  server := .initial
  serving := []
  sending := []
  replies := []
  calls := []
  nonces := [nonce]
  started := []
  handled := []
  returned := []

section Steps

variable (memory : ℕ → UInt8) (procs : Int32 → Bool)

/-- One client changes. -/
def setClient (s : RpcNet) (clt : UInt32) (c : RpcClient) : RpcNet :=
  { s with client := Function.update s.client clt c }

/-- The client takes note of a finished call. -/
def finish (s : RpcNet) (clt : UInt32) (xid : ℕ) : RpcNet :=
  { s with server := { s.server with
      finished := Function.update s.server.finished clt.toNat
        (xid :: s.server.finished clt.toNat) } }

/-- A reply is sent to a client. -/
def send (s : RpcNet) (clt : UInt32) (b : Bytes) : RpcNet :=
  { s with replies := (clt, b) :: s.replies }

/-- A thread of the server has the buffer of a reply, and is about to send it. -/
def take (s : RpcNet) (clt : UInt32) (xid : ℕ) (b : Bytes) : RpcNet :=
  { s with sending := ⟨clt, xid, b, false⟩ :: s.sending }

/-- The header that `rpcc::call1` packs. -/
def callHeader (s : RpcNet) (clt : UInt32) (proc : Int32) : ReqHeader :=
  let c := s.client clt
  ⟨packXid c.rpcc.xid_, proc, clt, c.srv_nonce_, packXid (c.rpcc.xid_rep_window_.headD 0)⟩

/-- The call has its number, and the request may arrive. -/
def called (s : RpcNet) (clt : UInt32) (proc : Int32) (args : List Val) (b : Bytes) : RpcNet :=
  let c := s.client clt
  { s.setClient clt { c with
      rpcc := c.rpcc.call1 (xidOf proc)
      proc := Function.update c.proc c.rpcc.xid_ proc
      un := Function.update c.un c.rpcc.xid_ none } with
    server := { s.server with
      issued := Function.update s.server.issued clt.toNat
        (⟨c.rpcc.xid_, c.rpcc.xid_rep_window_.headD 0⟩ :: s.server.issued clt.toNat) }
    calls := ⟨s.callHeader clt proc, args, b⟩ :: s.calls }

/-- The first block of `rpcc::call1`. -/
def call (s : RpcNet) (clt : UInt32) (proc : Int32) (args : List Val) : Option RpcNet :=
  if (s.client clt).rpcc.Refuses (xidOf proc) then some s
  else (marshalled memory (.req (s.callHeader clt proc)) args).map (s.called clt proc args)

/-- A reply without a result. -/
def fail (s : RpcNet) (h : ReqHeader) (ret : Int32) : Option RpcNet :=
  (marshalled memory (.reply ⟨h.xid, ret⟩) []).map fun b => s.send h.clt_nonce b

/-- `rpcs::dispatch` from the search for the handler on, up to its start. -/
def classify (s : RpcNet) (j : Handling) : Option RpcNet :=
  let h := j.header
  let clt := h.clt_nonce.toNat
  let server := s.server.dispatch clt h.request
  let s' := { s with
    server := server
    sending := s.sending.map fun p => p.after h.clt_nonce (server.window clt) }
  let start := { s' with serving := j :: s.serving, started := (s.nonce_, j) :: s.started }
  if clt = 0 then some start
  else
    match checkduplicateAndUpdate (s.server.window clt) h.request.xid h.request.xid_rep with
    | (.NEW, _, _) => some start
    | (.INPROGRESS, _, _) => some s'
    | (.DONE, _, out) =>
      match out with
      | some (some b, _) => some (s'.take h.clt_nonce h.request.xid b)
      | _ => some s'
    | (.FORGOTTEN, _, _) => s'.fail memory h atmostonceFailure

/-- `rpcs::dispatch` up to the start of the handler. A procedure that is not registered stops the
server. -/
def dispatch (s : RpcNet) (b : Bytes) : Option RpcNet :=
  let (h, req) := (Unmarshall.ofPdu b).unpackReqHeader
  if req.ok then
    if h.srv_nonce ≠ 0 ∧ h.srv_nonce ≠ s.nonce_ then s.fail memory h oldsrvFailure
    else if procs h.proc then s.classify memory ⟨h, req⟩
    else none
  else some s

/-- What a handler returns: `rpcbind` returns the nonce, and any other one what it likes. -/
def outcome (s : RpcNet) (proc ret : Int32) (result : List Val) : Int32 × List Val :=
  if xidOf proc = Rpcc.bind then (0, [⟨.key .int, s.nonce_.toInt32⟩]) else (ret, result)

/-- `rpcs::dispatch` from the return of the handler on. A negative value stops the server. -/
def handle (s : RpcNet) (j : Handling) (ret : Int32) (result : List Val) : Option RpcNet :=
  if j ∈ s.serving then
    let (ret, result) := s.outcome j.header.proc ret result
    if 0 ≤ ret then
      (marshalled memory (.reply ⟨j.header.xid, ret⟩) result).map fun b =>
        { s.take j.header.clt_nonce j.key.2 b with
          serving := s.serving.erase j
          server := s.server.recordReply j.key.1 j.key.2 b
          handled := ⟨s.nonce_, j, ret, result⟩ :: s.handled }
    else none
  else none

/-- The last byte of `b1` is taken. A buffer that was freed may hold anything. -/
def sent (s : RpcNet) (p : Sending) (b : Bytes) : Option RpcNet :=
  if p ∈ s.sending ∧ b.length = p.b1.length ∧ (p.freed = false → b = p.b1) then
    some { s.send p.clt_nonce b with sending := s.sending.erase p }
  else none

/-- The server is restarted with another nonce. -/
def restart (s : RpcNet) (nonce : UInt32) : RpcNet :=
  { s with
    nonce_ := nonce
    nonces := nonce :: s.nonces
    serving := []
    sending := []
    server := s.server.restarted }

/-- `rpcc::got_pdu`. -/
def gotPdu (s : RpcNet) (clt : UInt32) (b : Bytes) : RpcNet :=
  let (h, rep) := (Unmarshall.ofPdu b).unpackReplyHeader
  if rep.ok then
    let c := s.client clt
    let xid := xidOf h.xid
    let waits := (c.rpcc.calls_[xid]?).any fun ca => !ca.done
    (s.setClient clt { c with
      rpcc := c.rpcc.gotPdu xid h.ret.toInt
      un := if waits then Function.update c.un xid (some rep.takeIn) else c.un }).finish clt xid
  else s

/-- What `call1` returns. -/
def callRet (ca : Caller) : ℤ := if ca.done then ca.intret else timeoutFailure

/-- A call has returned, and the client has this `rpcc` and these nonces. -/
def cameBack (s : RpcNet) (clt : UInt32) (xid : ℕ) (ret : ℤ) (rpcc : Rpcc) (binds : List UInt32) :
    RpcNet :=
  let c := s.client clt
  { (s.finish clt xid).setClient clt { c with rpcc := rpcc, binds := binds } with
    returned := ⟨clt, xid, ret, c.un xid⟩ :: s.returned }

/-- The last block of `rpcc::call1`, and for a call of `bind` the rest of `call_m`. -/
def returns (s : RpcNet) (clt : UInt32) (xid : ℕ) : Option RpcNet :=
  let c := s.client clt
  match c.rpcc.calls_[xid]? with
  | none => none
  | some ca =>
    (c.rpcc.returns xid).bind fun rpcc =>
      if xidOf (c.proc xid) = Rpcc.bind ∧ callRet ca = 0 then
        match c.un xid with
        | none => none
        | some u =>
          let (r, u) : Int32 × Unmarshall := get u
          if u.okdone then some (s.cameBack clt xid (callRet ca) rpcc (r.toUInt32 :: c.binds))
          else none
      else some (s.cameBack clt xid (callRet ca) rpcc c.binds)

/-- The end of `rpcc::bind`. -/
def bound (s : RpcNet) (clt nonce : UInt32) : Option RpcNet :=
  let c := s.client clt
  if nonce ∈ c.binds then
    some (s.setClient clt { c with
      rpcc := { c.rpcc with bind_done_ := true }
      srv_nonce_ := nonce
      binds := c.binds.erase nonce })
  else none

/-- The state after an event. -/
def step (s : RpcNet) : NetEvent → Option RpcNet
  | .call clt proc args => s.call memory clt proc args
  | .dispatch b => if b ∈ s.calls.map SentCall.pdu then s.dispatch memory procs b else none
  | .handled j ret result => s.handle memory j ret result
  | .sent p b => s.sent p b
  | .restart nonce => some (s.restart nonce)
  | .gotPdu clt b => if (clt, b) ∈ s.replies then some (s.gotPdu clt b) else none
  | .returns clt xid => s.returns clt xid
  | .bound clt nonce => s.bound clt nonce
  | .cancel clt => some (s.setClient clt { s.client clt with rpcc := (s.client clt).rpcc.cancel })

end Steps

end RpcNet

/-- The clients, the server and the network. -/
def netSystem (memory : ℕ → UInt8) (procs : Int32 → Bool) : System RpcNet NetEvent where
  init s := ∃ nonce, nonce ≠ 0 ∧ s = .initial nonce
  step := RpcNet.step memory procs

/-- The numbers do not repeat: a client does not run out of xids, and no instance of the server
draws the nonce of an earlier one, nor `0`. And a reply is sent before its buffer is freed. -/
def Regular (s : RpcNet) : NetEvent → Prop
  | .call clt _ _ => (s.client clt).rpcc.xid_ < 2 ^ 32 - 1
  | .sent p _ => p.freed = false
  | .restart nonce => nonce ≠ 0 ∧ nonce ∉ s.nonces
  | _ => True

instance (s : RpcNet) : ∀ e, Decidable (Regular s e)
  | .call clt _ _ => inferInstanceAs (Decidable ((s.client clt).rpcc.xid_ < 2 ^ 32 - 1))
  | .sent p _ => inferInstanceAs (Decidable (p.freed = false))
  | .restart nonce => inferInstanceAs (Decidable (nonce ≠ 0 ∧ nonce ∉ s.nonces))
  | .dispatch _ | .handled .. | .gotPdu .. | .returns .. | .bound .. | .cancel _ => isTrue trivial

/-! ## The numbers -/

variable {b : Bytes} {clt : UInt32} {r : ReplyT} {xid : ℕ}

theorem xidOf_packXid (h : xid < 2 ^ 32) : xidOf (packXid xid) = xid := by
  rw [xidOf, packXid, UInt32.toUInt32_toInt32]
  exact UInt32.toNat_ofNat_of_lt' h

/-- `take_in` goes back to the end of the header. -/
theorem At.takeIn {u : Unmarshall} {k : ℕ} (h : At u b k) (hlen : rpcHeaderSz ≤ b.length) :
    At u.takeIn b rpcHeaderSz := by
  refine ⟨h.buf, h.sz, rfl, ?_, hlen, h.small⟩
  simp only [Unmarshall.takeIn, h.sz, decide_eq_true_eq]
  omega

/-- The values of a message are read from the end of its header on, and nothing is left. -/
theorem Message.read {h : Header} {vs : List Val} (hb : Message b h vs) {u : Unmarshall}
    (hu : At u b rpcHeaderSz) :
    ∃ u', getAll (vs.map Sigma.fst) u = (vs, u') ∧ u'.okdone = true := by
  obtain ⟨u', hget, hat⟩ := hu.getAll vs (hb.values ▸ List.prefix_rfl)
  refine ⟨u', hget, At.okdone (b := b) ?_⟩
  have hlen : rpcHeaderSz + (bytesOf (putAll vs)).length = b.length := hb.length.symm
  rwa [hlen] at hat

/-! ## The client -/

namespace Rpcc

variable {s : Rpcc}

/-- A call that is not refused. -/
theorem call1_of_not_refuses {proc : ℕ} (h : ¬ s.Refuses proc) : s.call1 proc =
    { s with
      xid_ := (s.xid_ + 1) % 2 ^ 32
      calls_ := s.calls_.insert s.xid_ ⟨false, 0⟩
      packed := ⟨s.xid_, s.xid_rep_window_.headD 0⟩ :: s.packed } := by
  unfold call1
  rw [if_neg fun hc => h (.inl hc), if_neg fun hc => h (.inr hc)]

/-- A reply is for one call, and for a call that waits. -/
theorem getElem?_gotPdu (xid : ℕ) (ret : ℤ) (x : ℕ) : (s.gotPdu xid ret).calls_[x]? =
    if x = xid ∧ (s.calls_[xid]?).any (fun ca => !ca.done) then some ⟨true, ret⟩
    else s.calls_[x]? := by
  have hcalls : (s.report xid).calls_ = s.calls_ := rfl
  unfold gotPdu
  dsimp only
  rw [hcalls]
  cases hca : s.calls_[xid]? with
  | none => simp
  | some ca =>
    cases hdone : ca.done with
    | true => simp [hdone]
    | false =>
      simp only [Bool.false_eq_true, if_false, Std.TreeMap.getElem?_insert,
        Std.LawfulEqCmp.compare_eq_iff_eq, Option.any_some, hdone, Bool.not_false, and_true]
      simp only [eq_comm]

/-- A reply is reported, and changes nothing else but the calls. -/
theorem exists_gotPdu_eq (s : Rpcc) (xid : ℕ) (ret : ℤ) : ∃ calls, s.gotPdu xid ret =
    { s.report xid with replied := xid :: s.replied, calls_ := calls } := by
  unfold gotPdu
  dsimp only
  split
  · exact ⟨_, rfl⟩
  · split <;> exact ⟨_, rfl⟩

theorem gotPdu_xid_ (xid : ℕ) (ret : ℤ) : (s.gotPdu xid ret).xid_ = s.xid_ := by
  obtain ⟨calls, hgot⟩ := s.exists_gotPdu_eq xid ret
  rw [hgot]
  rfl

theorem gotPdu_bind_done_ (xid : ℕ) (ret : ℤ) :
    (s.gotPdu xid ret).bind_done_ = s.bind_done_ := by
  obtain ⟨calls, hgot⟩ := s.exists_gotPdu_eq xid ret
  rw [hgot]
  rfl

/-- All calls that have not returned are told to stop. -/
theorem getElem?_cancel (x : ℕ) :
    s.cancel.calls_[x]? = (s.calls_[x]?).map fun _ => ⟨true, cancelFailure⟩ :=
  Std.TreeMap.getElem?_map

end Rpcc

/-! ## The windows -/

/-- The buffer of a reply that is found is that of an entry. -/
theorem exists_of_scan {state : RpcState} {w : List ReplyT} {b : Option Bytes} {sz : ℤ}
    (h : (scan xid state w).2 = some (b, sz)) : ∃ r ∈ w, r.buf = b := by
  induction w generalizing state with
  | nil => cases h
  | cons r rs ih =>
    unfold scan at h
    split at h
    · split at h
      · simp only [Option.some.injEq, Prod.mk.injEq] at h
        exact ⟨r, List.mem_cons_self, h.1⟩
      · obtain ⟨r', hr', hb⟩ := ih h
        exact ⟨r', List.mem_cons_of_mem _ hr', hb⟩
    · obtain ⟨r', hr', hb⟩ := ih h
      exact ⟨r', List.mem_cons_of_mem _ hr', hb⟩

/-- A reply that is sent again was recorded. -/
theorem exists_of_check {w w' : List ReplyT} {xid xid_rep : ℕ} {state : RpcState}
    {b : Option Bytes} {sz : ℤ}
    (h : checkduplicateAndUpdate w xid xid_rep = (state, w', some (b, sz))) :
    ∃ r ∈ w, r.buf = b := by
  unfold checkduplicateAndUpdate at h
  split at h
  · cases h
  · split at h
    · cases h
    · dsimp only at h
      simp only [Prod.mk.injEq] at h
      obtain ⟨r, hr, hb⟩ := exists_of_scan h.2.2
      exact ⟨r, (mem_cleanup.mp hr).1, hb⟩

/-- A request records no reply. -/
theorem mem_of_mem_check {w : List ReplyT} {xid xid_rep : ℕ}
    (hr : r ∈ (checkduplicateAndUpdate w xid xid_rep).2.1) (hb : r.buf = some b) : r ∈ w := by
  have hnone : ∀ x, r ≠ .inProgress x := by
    rintro x rfl
    cases hb
  unfold checkduplicateAndUpdate at hr
  split at hr
  · exact absurd (List.mem_singleton.mp hr) (hnone 0)
  · split at hr
    · exact hr
    · dsimp only at hr
      split at hr
      · obtain hr | hr := List.mem_append.mp hr
        · exact (mem_cleanup.mp hr).1
        · exact absurd (List.mem_singleton.mp hr) (hnone xid)
      · exact (mem_cleanup.mp hr).1

/-- A request records no reply, in any window. -/
theorem mem_of_mem_dispatch {s : State} {clt clt' : ℕ} {req : Request}
    (hr : r ∈ (s.dispatch clt req).window clt') (hb : r.buf = some b) : r ∈ s.window clt' := by
  by_cases hclt : clt' = clt
  · subst hclt
    by_cases hzero : clt' = 0
    · unfold State.dispatch at hr
      rw [if_pos hzero] at hr
      exact hr
    · rw [dispatch_window hzero] at hr
      exact mem_of_mem_check hr hb
  · rwa [dispatch_window_of_ne hclt] at hr

/-- A reply that is recorded is new in one window. -/
theorem mem_of_mem_recordReply {s : State} {clt clt' xid : ℕ}
    (hr : r ∈ (s.recordReply clt xid b).window clt') :
    r ∈ s.window clt' ∨ clt' = clt ∧ r.buf = some b := by
  unfold State.recordReply State.window at hr
  dsimp only at hr
  split at hr
  · exact .inl hr
  · by_cases hclt : clt' = clt
    · subst hclt
      rw [Function.update_self, Option.getD_some] at hr
      obtain hr | hr := List.mem_append.mp hr
      · exact .inl hr
      · rw [List.mem_singleton.mp hr]
        exact .inr ⟨rfl, rfl⟩
    · rw [Function.update_of_ne hclt] at hr
      exact .inl hr

/-! ## What the messages say -/

/-- The reply is that of a handler that has returned, to the client that has called it. -/
def Genuine (handled : List Handled) (clt : UInt32) (b : Bytes) : Prop :=
  ∃ a ∈ handled, a.job.header.clt_nonce = clt ∧
    Message b (.reply ⟨a.job.header.xid, a.ret⟩) a.result

/-- The reply says that a call of the client is not handled. -/
def Refusal (calls : List SentCall) (clt : UInt32) (b : Bytes) : Prop :=
  ∃ k ∈ calls, k.header.clt_nonce = clt ∧ ∃ ret < 0, Message b (.reply ⟨k.header.xid, ret⟩) []

/-- The call was handled, and what was returned is what can be read. -/
def Fulfilled (handled : List Handled) (clt : UInt32) (xid : ℕ) (ret : ℤ)
    (un : Option Unmarshall) : Prop :=
  ∃ a ∈ handled, a.job.header.clt_nonce = clt ∧ xidOf a.job.header.xid = xid ∧
    a.ret.toInt = ret ∧ ∃ b u, un = some u ∧
      Message b (.reply ⟨a.job.header.xid, a.ret⟩) a.result ∧ At u b rpcHeaderSz

theorem Genuine.mono {l l' : List Handled} (h : Genuine l clt b) (hl : l ⊆ l') :
    Genuine l' clt b := by
  obtain ⟨a, ha, hrest⟩ := h
  exact ⟨a, hl ha, hrest⟩

theorem Refusal.mono {l l' : List SentCall} (h : Refusal l clt b) (hl : l ⊆ l') :
    Refusal l' clt b := by
  obtain ⟨k, hk, hrest⟩ := h
  exact ⟨k, hl hk, hrest⟩

theorem Fulfilled.mono {l l' : List Handled} {ret : ℤ} {un : Option Unmarshall}
    (h : Fulfilled l clt xid ret un) (hl : l ⊆ l') :
    Fulfilled l' clt xid ret un := by
  obtain ⟨a, ha, hrest⟩ := h
  exact ⟨a, hl ha, hrest⟩

namespace RpcNet

/-- A client numbers its calls, and knows the server that it is bound to. -/
structure ClientOk (calls : List SentCall) (clt : UInt32) (c : RpcClient) : Prop where
  /-- The numbers of the calls have been given out. -/
  numbered : ∀ k ∈ calls, k.header.clt_nonce = clt → xidOf k.header.xid < c.rpcc.xid_
  /-- There are more of them. -/
  small : c.rpcc.xid_ < 2 ^ 32
  /-- A thread knows what it has called. -/
  proc : ∀ k ∈ calls, k.header.clt_nonce = clt → c.proc (xidOf k.header.xid) = k.header.proc
  /-- A client that is bound has the nonce of a server. -/
  bound : c.rpcc.bind_done_ = true → c.srv_nonce_ ≠ 0
  /-- So has a client that is about to be. -/
  binds : ∀ n ∈ c.binds, n ≠ 0

/-- The requests are those of the clients, each with a number of its own. -/
structure ClientsOk (s : RpcNet) : Prop where
  /-- The clients. -/
  client : ∀ clt, ClientOk s.calls clt (s.client clt)
  /-- The messages are what was packed. -/
  sent : ∀ k ∈ s.calls, Message k.pdu (.req k.header) k.args
  /-- No number is given out twice. -/
  unique : ∀ k ∈ s.calls, ∀ k' ∈ s.calls, k.header.clt_nonce = k'.header.clt_nonce →
    xidOf k.header.xid = xidOf k'.header.xid → k = k'
  /-- Only a call of `bind` is for any server. -/
  unbound : ∀ k ∈ s.calls, k.header.srv_nonce = 0 → xidOf k.header.proc = Rpcc.bind

/-- The server handles requests of clients, and remembers what was returned. -/
structure ServerOk (s : RpcNet) : Prop where
  /-- A server has a nonce. -/
  nonces : ∀ n ∈ s.nonces, n ≠ 0
  /-- The server has the latest one. -/
  current : s.nonce_ ∈ s.nonces
  /-- A handler is given the message of a call, and is of the server that the call is for. -/
  started : ∀ e ∈ s.started, e.1 ∈ s.nonces ∧ ∃ k ∈ s.calls, e.2.header = k.header ∧
    At e.2.req k.pdu rpcHeaderSz ∧ (k.header.srv_nonce = 0 ∨ k.header.srv_nonce = e.1)
  /-- A handler that runs was started. -/
  serving : ∀ j ∈ s.serving, (s.nonce_, j) ∈ s.started
  /-- A handler that has returned was started, and that of `bind` has returned the nonce. -/
  handled : ∀ a ∈ s.handled, (a.nonce, a.job) ∈ s.started ∧
    (xidOf a.job.header.proc = Rpcc.bind → a.result = [⟨.key .int, a.nonce.toInt32⟩])
  /-- The replies that are recorded were returned. -/
  window : ∀ clt : UInt32, ∀ r ∈ s.server.window clt.toNat, ∀ b, r.buf = some b →
    Genuine s.handled clt b
  /-- So were those that threads have the buffers of. -/
  sending : ∀ p ∈ s.sending, Genuine s.handled p.clt_nonce p.b1

/-- A call that is done was handled, or has failed. -/
def CallersOk (handled : List Handled) (clt : UInt32) (c : RpcClient) : Prop :=
  ∀ xid ca, c.rpcc.calls_[xid]? = some ca → ca.done = true →
    ca.intret < 0 ∨ Fulfilled handled clt xid ca.intret (c.un xid)

/-- What the clients are told is true. -/
structure RepliesOk (s : RpcNet) : Prop where
  /-- The replies that were sent. -/
  sent : ∀ p ∈ s.replies, Genuine s.handled p.1 p.2 ∨ Refusal s.calls p.1 p.2
  /-- The calls that are done. -/
  callers : ∀ clt, CallersOk s.handled clt (s.client clt)
  /-- The calls that have returned. -/
  returned : ∀ r ∈ s.returned, r.ret < 0 ∨ Fulfilled s.handled r.clt_nonce r.xid r.ret r.un

/-- All of it. -/
structure Authentic (s : RpcNet) : Prop where
  /-- The clients. -/
  clients : s.ClientsOk
  /-- The server. -/
  server : s.ServerOk
  /-- The replies. -/
  replies : s.RepliesOk

theorem authentic_initial {nonce : UInt32} (h : nonce ≠ 0) : (initial nonce).Authentic where
  clients :=
    { client := fun clt =>
        { numbered := nofun
          small := (by decide : 1 < 2 ^ 32)
          proc := nofun
          bound := nofun
          binds := fun _ hn => by cases hn }
      sent := nofun
      unique := nofun
      unbound := fun _ hk => by cases hk }
  server :=
    { nonces := fun _ hn => List.mem_singleton.mp hn ▸ h
      current := List.mem_singleton.mpr rfl
      started := nofun
      serving := nofun
      handled := nofun
      window := nofun
      sending := fun _ hp => by cases hp }
  replies :=
    { sent := nofun
      callers := fun clt xid ca hca => by
        have hnone : (∅ : Std.TreeMap ℕ Caller)[xid]? = none := Std.TreeMap.getElem?_emptyc
        exact absurd (hca.symm.trans hnone) (by simp)
      returned := fun _ hr => by cases hr }

/-- What holds of every client holds still when one of them changes. -/
theorem forall_update {P : UInt32 → RpcClient → Prop} {s : RpcNet} {clt : UInt32} {c : RpcClient}
    (h : ∀ clt, P clt (s.client clt)) (hc : P clt c) :
    ∀ clt', P clt' (Function.update s.client clt c clt') := by
  intro clt'
  by_cases hclt : clt' = clt
  · subst hclt
    rwa [Function.update_self]
  · rw [Function.update_of_ne hclt]
    exact h clt'

section Steps

variable {memory : ℕ → UInt8} {procs : Int32 → Bool} {s s' : RpcNet} {clt : UInt32} {k : SentCall}
  {b : Bytes} {c : RpcClient} {proc : Int32} {j : Handling} {args : List Val} {xid : ℕ}

/-! ### The clients -/

/-- The server goes on with the same messages when more of them are sent. -/
theorem ServerOk.calls (hi : s.ServerOk) {client : UInt32 → RpcClient} {calls : List SentCall}
    {issued : ℕ → List Request} (hcalls : s.calls ⊆ calls) :
    ({ s with
      client := client
      calls := calls
      server := { s.server with issued := issued } } : RpcNet).ServerOk where
  nonces := hi.nonces
  current := hi.current
  started := fun e he => by
    obtain ⟨hn, k, hk, hrest⟩ := hi.started e he
    exact ⟨hn, k, hcalls hk, hrest⟩
  serving := hi.serving
  handled := hi.handled
  window := hi.window
  sending := hi.sending

/-- A call is refused, or its request is packed. -/
theorem call_cases (h : s.call memory clt proc args = some s') :
    s' = s ∨ ¬ (s.client clt).rpcc.Refuses (xidOf proc) ∧
      ∃ b, Message b (.req (s.callHeader clt proc)) args ∧ s' = s.called clt proc args b := by
  unfold RpcNet.call at h
  split at h
  · exact .inl (Option.some.inj h).symm
  · rename_i hrefuses
    obtain ⟨b, hb, rfl⟩ := Option.map_eq_some_iff.mp h
    exact .inr ⟨hrefuses, b, message_of_marshalled hb, rfl⟩

/-- A request that comes is that of a call. -/
theorem step_dispatch (h : s.step memory procs (.dispatch b) = some s') :
    ∃ k ∈ s.calls, b = k.pdu ∧ s.dispatch memory procs k.pdu = some s' := by
  obtain ⟨hb, hdispatch⟩ := Option.ite_none_right_eq_some.mp h
  obtain ⟨k, hk, rfl⟩ := List.mem_map.mp hb
  exact ⟨k, hk, rfl, hdispatch⟩

/-- A reply that comes was sent. -/
theorem step_gotPdu (h : s.step memory procs (.gotPdu clt b) = some s') :
    (clt, b) ∈ s.replies ∧ s' = s.gotPdu clt b := by
  obtain ⟨hb, hgot⟩ := Option.ite_none_right_eq_some.mp h
  exact ⟨hb, (Option.some.inj hgot).symm⟩

/-- `rpcc::call1` gives the call a number that no other one has. -/
theorem ClientOk.called {calls : List SentCall} (hc : ClientOk calls clt c)
    (hxid : c.rpcc.xid_ < 2 ^ 32 - 1) (hrefuses : ¬ c.rpcc.Refuses (xidOf proc))
    (hk : xidOf k.header.xid = c.rpcc.xid_) (hproc : k.header.proc = proc) :
    ClientOk (k :: calls) clt { c with
      rpcc := c.rpcc.call1 (xidOf proc)
      proc := Function.update c.proc c.rpcc.xid_ proc
      un := Function.update c.un c.rpcc.xid_ none } := by
  have hnext : (c.rpcc.xid_ + 1) % 2 ^ 32 = c.rpcc.xid_ + 1 := Nat.mod_eq_of_lt (by omega)
  rw [Rpcc.call1_of_not_refuses hrefuses, hnext]
  refine ⟨?_, show c.rpcc.xid_ + 1 < 2 ^ 32 by omega, ?_, hc.bound, hc.binds⟩
  · refine List.forall_mem_cons.mpr ⟨fun _ => hk.trans_lt (Nat.lt_succ_self _), fun k hk hclt => ?_⟩
    exact Nat.lt_succ_of_lt (hc.numbered k hk hclt)
  · refine List.forall_mem_cons.mpr ⟨fun _ => ?_, fun k hk hclt => ?_⟩
    · rw [hk, hproc]
      exact Function.update_self ..
    · exact (Function.update_of_ne (hc.numbered k hk hclt).ne ..).trans (hc.proc k hk hclt)

/-- A call of another client. -/
theorem ClientOk.other {calls : List SentCall} (hc : ClientOk calls clt c)
    (hk : k.header.clt_nonce ≠ clt) :
    ClientOk (k :: calls) clt c :=
  ⟨List.forall_mem_cons.mpr ⟨fun h => absurd h hk, hc.numbered⟩, hc.small,
    List.forall_mem_cons.mpr ⟨fun h => absurd h hk, hc.proc⟩, hc.bound, hc.binds⟩

theorem ClientsOk.called (hi : s.ClientsOk) (hxid : (s.client clt).rpcc.xid_ < 2 ^ 32 - 1)
    (hrefuses : ¬ (s.client clt).rpcc.Refuses (xidOf proc))
    (hb : Message b (.req (s.callHeader clt proc)) args) :
    (s.called clt proc args b).ClientsOk := by
  have hc := hi.client clt
  have hx : xidOf (s.callHeader clt proc).xid = (s.client clt).rpcc.xid_ :=
    xidOf_packXid (by omega)
  refine ⟨fun clt' => ?_, List.forall_mem_cons.mpr ⟨hb, hi.sent⟩, fun k hk k' hk' hclt hxids => ?_,
    List.forall_mem_cons.mpr ⟨fun hzero => ?_, hi.unbound⟩⟩
  · show ClientOk _ clt' (Function.update s.client clt _ clt')
    by_cases hclt : clt' = clt
    · subst hclt
      rw [Function.update_self]
      exact hc.called hxid hrefuses hx rfl
    · rw [Function.update_of_ne hclt]
      exact (hi.client clt').other (Ne.symm hclt)
  · obtain rfl | hk := List.mem_cons.mp hk <;> obtain rfl | hk' := List.mem_cons.mp hk'
    · rfl
    · have hlt := hc.numbered k' hk' hclt.symm
      rw [← hxids, hx] at hlt
      exact absurd hlt (Nat.lt_irrefl _)
    · have hlt := hc.numbered k hk hclt
      rw [hxids, hx] at hlt
      exact absurd hlt (Nat.lt_irrefl _)
    · exact hi.unique k hk k' hk' hclt hxids
  · -- a client that is bound has the nonce of a server
    by_contra hproc
    refine hrefuses (.inl (.inl ⟨hproc, ?_⟩))
    exact Bool.eq_false_iff.mpr fun hdone => hc.bound hdone hzero

theorem RepliesOk.called (hi : s.RepliesOk)
    (hrefuses : ¬ (s.client clt).rpcc.Refuses (xidOf proc)) :
    (s.called clt proc args b).RepliesOk := by
  refine ⟨fun p hp => ?_, forall_update hi.callers fun xid ca hca hdone => ?_, hi.returned⟩
  · exact (hi.sent p hp).imp_right fun hr => hr.mono (List.subset_cons_self _ _)
  · dsimp only at hca ⊢
    rw [Rpcc.call1_of_not_refuses hrefuses] at hca
    simp only [Std.TreeMap.getElem?_insert, Std.LawfulEqCmp.compare_eq_iff_eq] at hca
    split at hca
    · -- the new call waits
      cases hca
      cases hdone
    · rename_i hne
      rw [Function.update_of_ne (Ne.symm hne)]
      exact hi.callers clt xid ca hca hdone

/-- A client changes, but for the numbers of its calls. -/
theorem ClientOk.of_eq {c c' : RpcClient} {calls : List SentCall} (hc : ClientOk calls clt c)
    (hxid : c'.rpcc.xid_ = c.rpcc.xid_) (hproc : c'.proc = c.proc)
    (hbound : c'.rpcc.bind_done_ = true → c'.srv_nonce_ ≠ 0) (hbinds : ∀ n ∈ c'.binds, n ≠ 0) :
    ClientOk calls clt c' :=
  ⟨hxid ▸ hc.numbered, hxid ▸ hc.small, hproc ▸ hc.proc, hbound, hbinds⟩

/-- A reply to a client is what a handler has returned, or is negative. -/
theorem reply_cases (hi : s.RepliesOk) (hb : (clt, b) ∈ s.replies) :
    ∃ h u, (Unmarshall.ofPdu b).unpackReplyHeader = (h, u) ∧ u.ok = true ∧
      (h.ret.toInt < 0 ∨
        Fulfilled s.handled clt (xidOf h.xid) h.ret.toInt (some u.takeIn)) := by
  obtain ⟨a, ha, hclt, hmsg⟩ | ⟨k, hk, hclt, ret, hret, hmsg⟩ := hi.sent _ hb
  · obtain ⟨u, hu, hat⟩ := hmsg.at_zero.unpackReplyHeader hmsg.header_le hmsg.header
    exact ⟨_, u, hu, hat.ok, .inr ⟨a, ha, hclt, rfl, rfl, b, _, rfl, hmsg,
      hat.takeIn hmsg.header_le⟩⟩
  · obtain ⟨u, hu, hat⟩ := hmsg.at_zero.unpackReplyHeader hmsg.header_le hmsg.header
    exact ⟨_, u, hu, hat.ok, .inl (Int32.lt_iff_toInt_lt.mp hret)⟩

/-- `rpcc::got_pdu` takes in what was sent. -/
theorem Authentic.gotPdu (hi : s.Authentic) (hb : (clt, b) ∈ s.replies) :
    (s.gotPdu clt b).Authentic := by
  obtain ⟨h, u, hu, hok, hsaid⟩ := reply_cases hi.replies hb
  unfold RpcNet.gotPdu
  rw [hu]
  dsimp only
  rw [if_pos hok]
  have hc := hi.clients.client clt
  refine ⟨{ hi.clients with client := forall_update hi.clients.client ?_ }, { hi.server with },
    { hi.replies with callers := forall_update hi.replies.callers ?_ }⟩
  · refine hc.of_eq (Rpcc.gotPdu_xid_ _ _) rfl (fun hdone => hc.bound ?_) hc.binds
    rwa [Rpcc.gotPdu_bind_done_] at hdone
  · intro xid ca hca hdone
    dsimp only at hca ⊢
    rw [Rpcc.getElem?_gotPdu] at hca
    split at hca
    · -- the call that the reply is for
      rename_i hcond
      obtain ⟨rfl, hwaits⟩ := hcond
      cases hca
      rw [if_pos hwaits, Function.update_self]
      exact hsaid
    · rename_i hcond
      have hun : (if ((s.client clt).rpcc.calls_[xidOf h.xid]?).any (fun ca => !ca.done) = true then
          Function.update (s.client clt).un (xidOf h.xid) (some u.takeIn)
          else (s.client clt).un) xid = (s.client clt).un xid := by
        split
        · rename_i hwaits
          exact Function.update_of_ne (fun heq => hcond ⟨heq, heq ▸ hwaits⟩) ..
        · rfl
      rw [hun]
      exact hi.replies.callers clt xid ca hca hdone

/-- What a call returns that is done, or has waited too long. -/
theorem CallersOk.ret {handled : List Handled} (hc : CallersOk handled clt c) {ca : Caller}
    (hca : c.rpcc.calls_[xid]? = some ca) :
    callRet ca < 0 ∨ Fulfilled handled clt xid (callRet ca) (c.un xid) := by
  unfold callRet
  split
  · rename_i hdone
    exact hc xid ca hca hdone
  · exact .inl (by decide)

/-- A call that returns was one of the client's, and only for a call of `bind` a nonce comes
back. -/
theorem returns_cases (h : s.returns clt xid = some s') :
    ∃ ca rpcc binds, (s.client clt).rpcc.calls_[xid]? = some ca ∧
      (s.client clt).rpcc.returns xid = some rpcc ∧
      s' = s.cameBack clt xid (callRet ca) rpcc binds ∧
      (binds = (s.client clt).binds ∨ xidOf ((s.client clt).proc xid) = Rpcc.bind ∧
        callRet ca = 0 ∧ ∃ u, (s.client clt).un xid = some u ∧
          binds = (get u : Int32 × Unmarshall).1.toUInt32 :: (s.client clt).binds) := by
  unfold RpcNet.returns at h
  dsimp only at h
  split at h
  · cases h
  rename_i ca hca
  obtain ⟨rpcc, hrpcc, h⟩ := Option.bind_eq_some_iff.mp h
  refine ⟨ca, rpcc, ?_⟩
  split at h
  · rename_i hbind
    split at h
    · cases h
    rename_i u hu
    split at h
    · cases h
      exact ⟨_, hca, hrpcc, rfl, .inr ⟨hbind.1, hbind.2, u, hu, rfl⟩⟩
    · cases h
  · cases h
    exact ⟨_, hca, hrpcc, rfl, .inl rfl⟩

/-- The nonce with which a call of `bind` comes back is that of a server. -/
theorem Authentic.bind_ne_zero (hi : s.Authentic) {ret : ℤ} {u : Unmarshall}
    (hproc : xidOf ((s.client clt).proc xid) = Rpcc.bind)
    (hful : Fulfilled s.handled clt xid ret (some u)) :
    (get u : Int32 × Unmarshall).1.toUInt32 ≠ 0 := by
  obtain ⟨a, ha, hclt, hxid, -, b, u', hu, hmsg, hat⟩ := hful
  cases hu
  obtain ⟨hst, hbind⟩ := hi.server.handled a ha
  obtain ⟨hn, k, hk, hhead, -, -⟩ := hi.server.started _ hst
  dsimp only at hn hhead
  rw [hhead] at hclt hxid hbind
  have hknown := (hi.clients.client clt).proc k hk hclt
  rw [hxid] at hknown
  -- the handler was that of `bind`
  have hresult := hbind (hknown ▸ hproc)
  have hvalues := hmsg.values
  rw [hresult] at hvalues
  obtain ⟨u₁, hget, -⟩ := decodes a.nonce.toInt32 hat (by
    rw [hvalues]
    exact List.prefix_rfl)
  rw [hget]
  exact UInt32.toUInt32_toInt32 _ ▸ hi.server.nonces _ hn

/-- A call returns what its reply says. -/
theorem Authentic.returns (hi : s.Authentic) (h : s.returns clt xid = some s') : s'.Authentic := by
  obtain ⟨ca, rpcc, binds, hca, hrpcc, rfl, hbinds⟩ := returns_cases h
  have hret := (hi.replies.callers clt).ret hca
  have hc := hi.clients.client clt
  have hbinds : ∀ n ∈ binds, n ≠ 0 := by
    obtain rfl | ⟨hproc, hzero, u, hu, rfl⟩ := hbinds
    · exact hc.binds
    · have hful := hret.resolve_left (by rw [hzero]; exact Int.lt_irrefl 0)
      rw [hu] at hful
      exact List.forall_mem_cons.mpr ⟨hi.bind_ne_zero hproc hful, hc.binds⟩
  unfold Rpcc.returns at hrpcc
  split at hrpcc
  swap
  · cases hrpcc
  cases hrpcc
  refine ⟨{ hi.clients with
      client := forall_update hi.clients.client (hc.of_eq rfl rfl hc.bound hbinds) },
    { hi.server with }, { hi.replies with
      callers := forall_update hi.replies.callers fun x ca' hca' hdone => ?_
      returned := List.forall_mem_cons.mpr ⟨hret, hi.replies.returned⟩ }⟩
  -- the other calls of the client are as before
  simp only [Std.TreeMap.getElem?_erase] at hca'
  split at hca'
  · cases hca'
  · exact hi.replies.callers clt x ca' hca' hdone

/-- A client changes, with its calls as they were or told to stop. -/
theorem Authentic.setClient (hi : s.Authentic) (hc : ClientOk s.calls clt c)
    (hcallers : CallersOk s.handled clt c) :
    (s.setClient clt c).Authentic where
  clients := { hi.clients with client := forall_update hi.clients.client hc }
  server := { hi.server with }
  replies := { hi.replies with callers := forall_update hi.replies.callers hcallers }

theorem Authentic.bound (hi : s.Authentic) {clt nonce : UInt32}
    (h : s.bound clt nonce = some s') : s'.Authentic := by
  unfold RpcNet.bound at h
  dsimp only at h
  split at h
  · rename_i hmem
    cases h
    have hc := hi.clients.client clt
    refine hi.setClient (hc.of_eq rfl rfl (fun _ => hc.binds nonce hmem) fun n hn => ?_)
      (hi.replies.callers clt)
    exact hc.binds n (List.mem_of_mem_erase hn)
  · cases h

theorem Authentic.cancel (hi : s.Authentic) (clt : UInt32) :
    (s.setClient clt { s.client clt with rpcc := (s.client clt).rpcc.cancel }).Authentic := by
  have hc := hi.clients.client clt
  refine hi.setClient (hc.of_eq rfl rfl hc.bound hc.binds) fun xid ca hca _ => ?_
  rw [Rpcc.getElem?_cancel] at hca
  obtain ⟨ca', -, rfl⟩ := Option.map_eq_some_iff.mp hca
  exact .inl (by decide)

/-! ### The server -/

/-- The server changes its windows and has no more replies in them, and its threads have what
handlers have returned. -/
theorem Authentic.windows (hi : s.Authentic) {server : State} {sending : List Sending}
    (hw : ∀ clt r b, r ∈ server.window clt → r.buf = some b → r ∈ s.server.window clt)
    (hsending : ∀ p ∈ sending, Genuine s.handled p.clt_nonce p.b1) :
    ({ s with server := server, sending := sending } : RpcNet).Authentic where
  clients := { hi.clients with }
  server :=
    { hi.server with
      window := fun clt r hr b hb => hi.server.window clt r (hw _ r b hr hb) b hb
      sending := hsending }
  replies := { hi.replies with }

/-- A freed buffer is that of the same reply. -/
theorem Sending.genuine_after {handled : List Handled} {p : Sending} {w : List ReplyT}
    (h : Genuine handled p.clt_nonce p.b1) :
    Genuine handled (p.after clt w).clt_nonce (p.after clt w).b1 := by
  unfold Sending.after
  split <;> exact h

/-- A reply is sent. -/
theorem Authentic.send (hi : s.Authentic) (hb : Genuine s.handled clt b ∨ Refusal s.calls clt b) :
    (s.send clt b).Authentic where
  clients := { hi.clients with }
  server := { hi.server with }
  replies := { hi.replies with sent := List.forall_mem_cons.mpr ⟨hb, hi.replies.sent⟩ }

/-- A reply is sent from a buffer that is not freed. -/
theorem Authentic.sent (hi : s.Authentic) {p : Sending} (hfreed : p.freed = false)
    (h : s.sent p b = some s') : s'.Authentic := by
  obtain ⟨⟨hp, -, hb⟩, hs'⟩ := Option.ite_none_right_eq_some.mp h
  cases hs'
  refine (hi.windows (fun _ _ _ hr _ => hr) fun q hq => ?_).send (.inl ?_)
  · exact hi.server.sending q (List.mem_of_mem_erase hq)
  · exact hb hfreed ▸ hi.server.sending p hp

theorem Authentic.fail (hi : s.Authentic) (hk : k ∈ s.calls) {ret : Int32} (hret : ret < 0)
    (h : s.fail memory k.header ret = some s') : s'.Authentic := by
  obtain ⟨b, hb, rfl⟩ := Option.map_eq_some_iff.mp h
  exact hi.send (.inr ⟨k, hk, rfl, ret, hret, message_of_marshalled hb⟩)

/-- A handler is started. -/
theorem Authentic.start (hi : s.Authentic) (hk : k ∈ s.calls) (hj : j.header = k.header)
    (hat : At j.req k.pdu rpcHeaderSz)
    (hsrv : k.header.srv_nonce = 0 ∨ k.header.srv_nonce = s.nonce_) :
    ({ s with
      serving := j :: s.serving
      started := (s.nonce_, j) :: s.started } : RpcNet).Authentic := by
  refine ⟨{ hi.clients with }, { hi.server with
      started := List.forall_mem_cons.mpr
        ⟨⟨hi.server.current, k, hk, hj, hat, hsrv⟩, hi.server.started⟩
      serving := List.forall_mem_cons.mpr ⟨List.mem_cons_self, fun j hj => ?_⟩
      handled := fun a ha => ?_ }, { hi.replies with }⟩
  · exact List.mem_cons_of_mem _ (hi.server.serving j hj)
  · exact ⟨List.mem_cons_of_mem _ (hi.server.handled a ha).1, (hi.server.handled a ha).2⟩

/-- `rpcs::dispatch` for a request of the server's own. -/
theorem Authentic.classify (hi : s.Authentic) (hk : k ∈ s.calls) (hj : j.header = k.header)
    (hat : At j.req k.pdu rpcHeaderSz)
    (hsrv : k.header.srv_nonce = 0 ∨ k.header.srv_nonce = s.nonce_)
    (h : s.classify memory j = some s') : s'.Authentic := by
  unfold RpcNet.classify at h
  dsimp only at h
  rw [hj] at h
  generalize hserver : s.server.dispatch k.header.clt_nonce.toNat k.header.request = server at h
  have hwin : ({ s with
      server := server
      sending := s.sending.map fun p => p.after k.header.clt_nonce
        (server.window k.header.clt_nonce.toNat) } : RpcNet).Authentic := by
    refine hi.windows (fun clt r b hr hb => mem_of_mem_dispatch (hserver ▸ hr) hb)
      (List.forall_mem_map.mpr fun p hp => ?_)
    exact Sending.genuine_after (hi.server.sending p hp)
  split at h
  · cases h
    exact hwin.start hk hj hat hsrv
  split at h
  · cases h
    exact hwin.start hk hj hat hsrv
  · cases h
    exact hwin
  · rename_i out hcheck
    split at h
    · -- the reply that was recorded is sent again
      cases h
      obtain ⟨r, hr, hb⟩ := exists_of_check hcheck
      exact hwin.windows (fun _ _ _ hr _ => hr) (List.forall_mem_cons.mpr
        ⟨hi.server.window _ r hr _ hb, hwin.server.sending⟩)
    · cases h
      exact hwin
  · exact hwin.fail hk (by decide) h

/-- `rpcs::dispatch` answers a request for another server at once, and goes on with its own ones. -/
theorem Authentic.dispatch_cases (hi : s.Authentic) (hk : k ∈ s.calls)
    (h : s.dispatch memory procs k.pdu = some s') :
    s.fail memory k.header oldsrvFailure = some s' ∨
      ∃ j, j.header = k.header ∧ At j.req k.pdu rpcHeaderSz ∧
        (k.header.srv_nonce = 0 ∨ k.header.srv_nonce = s.nonce_) ∧
        s.classify memory j = some s' := by
  have hmsg := hi.clients.sent k hk
  obtain ⟨u, hu, hat⟩ := hmsg.at_zero.unpackReqHeader hmsg.header_le hmsg.header
  unfold RpcNet.dispatch at h
  rw [hu] at h
  dsimp only at h
  rw [if_pos hat.ok] at h
  split at h
  · exact .inl h
  · rename_i hsrv
    split at h
    · exact .inr ⟨_, rfl, hat, by tauto, h⟩
    · cases h

/-- `rpcs::dispatch` gives a handler the message of a call. -/
theorem Authentic.dispatch (hi : s.Authentic) (hk : k ∈ s.calls)
    (h : s.dispatch memory procs k.pdu = some s') : s'.Authentic := by
  obtain hfail | ⟨j, hj, hat, hsrv, hclass⟩ := hi.dispatch_cases hk h
  · exact hi.fail hk (by decide) hfail
  · exact hi.classify hk hj hat hsrv hclass

/-- A handler that returns was running, and its reply is recorded and about to be sent. -/
theorem handle_cases {ret : Int32} {result : List Val}
    (h : s.handle memory j ret result = some s') :
    j ∈ s.serving ∧ ∃ ret' result' b, s.outcome j.header.proc ret result = (ret', result') ∧
      Message b (.reply ⟨j.header.xid, ret'⟩) result' ∧
      s' = { s.take j.header.clt_nonce j.key.2 b with
        serving := s.serving.erase j
        server := s.server.recordReply j.key.1 j.key.2 b
        handled := ⟨s.nonce_, j, ret', result'⟩ :: s.handled } := by
  unfold RpcNet.handle at h
  split at h
  swap
  · cases h
  rename_i hj
  generalize s.outcome j.header.proc ret result = out at h ⊢
  obtain ⟨ret', result'⟩ := out
  dsimp only at h
  split at h
  swap
  · cases h
  obtain ⟨b, hb, rfl⟩ := Option.map_eq_some_iff.mp h
  exact ⟨hj, ret', result', b, rfl, message_of_marshalled hb, rfl⟩

/-- The reply of a handler is genuine. -/
theorem Authentic.handle (hi : s.Authentic) {ret : Int32} {result : List Val}
    (h : s.handle memory j ret result = some s') : s'.Authentic := by
  obtain ⟨hj, ret', result', b, hout, hmsg, rfl⟩ := handle_cases h
  have hsub : s.handled ⊆ ⟨s.nonce_, j, ret', result'⟩ :: s.handled := List.subset_cons_self _ _
  have hgen : Genuine (⟨s.nonce_, j, ret', result'⟩ :: s.handled) j.header.clt_nonce b :=
    ⟨_, List.mem_cons_self, rfl, hmsg⟩
  refine ⟨{ hi.clients with }, { hi.server with
      serving := fun j' hj' => hi.server.serving j' (List.mem_of_mem_erase hj')
      handled := List.forall_mem_cons.mpr
        ⟨⟨hi.server.serving j hj, fun hbind => ?_⟩, hi.server.handled⟩
      window := fun clt r hr b' hb' => ?_
      sending := List.forall_mem_cons.mpr
        ⟨hgen, fun p hp => (hi.server.sending p hp).mono hsub⟩ },
    ⟨fun p hp => ?_, fun clt xid ca hca hdone => ?_, fun r hr => ?_⟩⟩
  · unfold outcome at hout
    rw [if_pos hbind, Prod.mk.injEq] at hout
    exact hout.2.symm
  · obtain hr | ⟨hclt, hbuf⟩ := mem_of_mem_recordReply hr
    · exact (hi.server.window clt r hr b' hb').mono hsub
    · rw [hbuf, Option.some.injEq] at hb'
      rw [← hb', UInt32.toNat_inj.mp hclt]
      exact hgen
  · exact (hi.replies.sent p hp).imp_left fun hg => hg.mono hsub
  · exact (hi.replies.callers clt xid ca hca hdone).imp_right fun hf => hf.mono hsub
  · exact (hi.replies.returned r hr).imp_right fun hf => hf.mono hsub

/-- The server is restarted with a nonce that is not `0`. -/
theorem Authentic.restart (hi : s.Authentic) {nonce : UInt32} (hn : nonce ≠ 0) :
    (s.restart nonce).Authentic := by
  refine ⟨{ hi.clients with }, ⟨List.forall_mem_cons.mpr ⟨hn, hi.server.nonces⟩,
    List.mem_cons_self, fun e he => ?_, fun j hj => ?_, hi.server.handled, fun clt r hr => ?_,
    fun p hp => ?_⟩, { hi.replies with }⟩
  · exact ⟨List.mem_cons_of_mem _ (hi.server.started e he).1, (hi.server.started e he).2⟩
  · cases hj
  · cases hr
  · cases hp

/-- Every step. -/
theorem Authentic.step (hi : s.Authentic) {e : NetEvent} (hG : Regular s e)
    (h : s.step memory procs e = some s') : s'.Authentic := by
  cases e with
  | call clt proc args =>
    obtain rfl | ⟨hrefuses, b, hb, rfl⟩ := call_cases h
    · exact hi
    · exact ⟨hi.clients.called hG hrefuses hb, hi.server.calls (List.subset_cons_self _ _),
        hi.replies.called hrefuses⟩
  | dispatch b =>
    obtain ⟨k, hk, rfl, hdispatch⟩ := step_dispatch h
    exact hi.dispatch hk hdispatch
  | handled j ret result => exact hi.handle h
  | sent p b => exact hi.sent hG h
  | restart nonce =>
    cases h
    exact hi.restart hG.1
  | gotPdu clt b =>
    obtain ⟨hb, rfl⟩ := step_gotPdu h
    exact hi.gotPdu hb
  | returns clt xid => exact hi.returns h
  | bound clt nonce => exact hi.bound h
  | cancel clt =>
    cases h
    exact hi.cancel clt

end Steps

/-- The handler whose reply a call has returned. -/
theorem Authentic.exists_handled {s : RpcNet} (hi : s.Authentic) {k : SentCall} (hk : k ∈ s.calls)
    {r : ReturnedCall} (hr : r ∈ s.returned) (hclt : r.clt_nonce = k.header.clt_nonce)
    (hxid : r.xid = xidOf k.header.xid) (hret : 0 ≤ r.ret) :
    ∃ a ∈ s.handled, a.job.header = k.header ∧ a.ret.toInt = r.ret ∧
      (xidOf k.header.proc ≠ Rpcc.bind → a.nonce = k.header.srv_nonce) ∧
      (∃ u, getAll (k.args.map Sigma.fst) a.job.req = (k.args, u) ∧ u.okdone = true) ∧
      ∃ un u, r.un = some un ∧ getAll (a.result.map Sigma.fst) un = (a.result, u) ∧
        u.okdone = true := by
  obtain ⟨a, ha, haclt, haxid, haret, b, un, hun, hmsg, hat⟩ :=
    (hi.replies.returned r hr).resolve_left (not_lt.mpr hret)
  obtain ⟨-, k', hk', hhead, hreq, hsrv⟩ := hi.server.started _ (hi.server.handled a ha).1
  dsimp only at hhead hreq hsrv
  -- the request that was handled is that of the call
  obtain rfl : k' = k := by
    refine hi.clients.unique k' hk' k hk ?_ ?_
    · rw [← hhead, haclt, hclt]
    · rw [← hhead, haxid, hxid]
  refine ⟨a, ha, hhead, haret, fun hproc => ?_, (hi.clients.sent k' hk).read hreq, un, ?_⟩
  · exact (hsrv.resolve_left fun hzero => hproc (hi.clients.unbound k' hk hzero)).symm
  · obtain ⟨u, hget, hdone⟩ := hmsg.read hat
    exact ⟨u, hun, hget, hdone⟩

/-- A call that returns a value that is not negative was handled. The handler was one of the server
that the client was bound to when it called, it could read the arguments of the call and nothing
else, and what it returned is what `call1` returns and what the caller can read. Replies are assumed
to be sent before their buffers are freed. -/
theorem reply_authentic {memory : ℕ → UInt8} {procs : Int32 → Bool} {s : RpcNet}
    (h : (netSystem memory procs).Reachable Regular s) {k : SentCall} (hk : k ∈ s.calls)
    {r : ReturnedCall} (hr : r ∈ s.returned) (hclt : r.clt_nonce = k.header.clt_nonce)
    (hxid : r.xid = xidOf k.header.xid) (hret : 0 ≤ r.ret) :
    ∃ a ∈ s.handled, a.job.header = k.header ∧ a.ret.toInt = r.ret ∧
      (xidOf k.header.proc ≠ Rpcc.bind → a.nonce = k.header.srv_nonce) ∧
      (∃ u, getAll (k.args.map Sigma.fst) a.job.req = (k.args, u) ∧ u.okdone = true) ∧
      ∃ un u, r.un = some un ∧ getAll (a.result.map Sigma.fst) un = (a.result, u) ∧
        u.okdone = true := by
  have hi : s.Authentic := by
    refine h.invariant ?_ fun a e b ha hG hb => ha.step hG hb
    rintro a ⟨nonce, hn, rfl⟩
    exact authentic_initial hn
  exact hi.exists_handled hk hr hclt hxid hret

/-- The request in a message. -/
def handlingOf (b : Bytes) : Handling :=
  let (h, req) := (Unmarshall.ofPdu b).unpackReqHeader
  ⟨h, req⟩

/-- The request of client `9` to bind. -/
def bindPdu : Bytes :=
  [0, 0, 0, 0, 0, 0, 0, 1, 0, 0, 0, 1, 0, 0, 0, 9, 0, 0, 0, 0, 0, 0, 0, 0, 0, 0, 0, 0]

/-- The answer of the server `6`. -/
def boundPdu : Bytes :=
  [0, 0, 0, 0, 0, 0, 0, 1, 0, 0, 0, 0, 0, 0, 0, 0, 0, 0, 0, 0, 0, 0, 0, 0, 0, 0, 0, 6]

/-- The next call of the client, of procedure `2` with the argument `true`. -/
def callPdu : Bytes :=
  [0, 0, 0, 0, 0, 0, 0, 2, 0, 0, 0, 2, 0, 0, 0, 9, 0, 0, 0, 6, 0, 0, 0, 1, 1]

/-- What procedure `2` returns: `3`, with the result `false`. -/
def returnPdu : Bytes :=
  [0, 0, 0, 0, 0, 0, 0, 2, 0, 0, 0, 3, 0, 0, 0, 0, 0, 0, 0, 0, 0, 0, 0, 0, 0]

/-- A client binds and makes a call. -/
def bindAndCall : List NetEvent :=
  [.call 9 1 [⟨.key .int, (0 : Int32)⟩], .dispatch bindPdu, .handled (handlingOf bindPdu) 0 [],
    .sent ⟨9, 1, boundPdu, false⟩ boundPdu, .gotPdu 9 boundPdu, .returns 9 1, .bound 9 6,
    .call 9 2 [⟨.key .bool, true⟩], .dispatch callPdu,
    .handled (handlingOf callPdu) 3 [⟨.key .bool, false⟩],
    .sent ⟨9, 2, returnPdu, false⟩ returnPdu, .gotPdu 9 returnPdu, .returns 9 2]

/-- The call returns what the handler has returned. -/
theorem reply_authentic_bindAndCall : ∃ s, ∃ k ∈ s.calls, ∃ r ∈ s.returned,
    (netSystem (fun _ => 0) fun _ => true).Reachable Regular s ∧ k.pdu = callPdu ∧ r.ret = 3 ∧
      ∃ a ∈ s.handled, a.job.header = k.header ∧ a.nonce = 6 ∧ a.ret.toInt = 3 := by
  have hmap : ((netSystem (fun _ => 0) fun _ => true).execGuarded Regular (.initial 6)
      bindAndCall).map (fun s => (s.calls.map (fun k => (k.pdu, k.header)),
        s.returned.map fun r => (r.clt_nonce, r.xid, r.ret))) =
      some ([(callPdu, ⟨2, 2, 9, 6, 1⟩), (bindPdu, ⟨1, 1, 9, 0, 0⟩)], [(9, 2, 3), (9, 1, 0)]) := by
    decide +kernel
  obtain ⟨s, hs, hval⟩ := Option.map_eq_some_iff.mp hmap
  obtain ⟨hcalls, hreturned⟩ := Prod.mk.inj hval
  have hreach := System.Reachable.of_execGuarded hs ⟨6, by decide, rfl⟩
  obtain ⟨k, hk, hkval⟩ := List.mem_map.mp (hcalls ▸ List.mem_cons_self)
  obtain ⟨r, hr, hrval⟩ := List.mem_map.mp (hreturned ▸ List.mem_cons_self)
  obtain ⟨hpdu, hheader⟩ := Prod.mk.inj hkval
  obtain ⟨hclt, hxid, hret⟩ : r.clt_nonce = 9 ∧ r.xid = 2 ∧ r.ret = 3 := by
    simpa only [Prod.mk.injEq] using hrval
  obtain ⟨a, ha, hhead, haret, hsrv, -⟩ := reply_authentic hreach hk hr
    (by rw [hclt, hheader]) (by rw [hxid, hheader]; decide) (by rw [hret]; decide)
  refine ⟨s, k, hk, r, hr, hreach, hpdu, hret, a, ha, hhead, ?_, haret.trans hret⟩
  rw [hsrv (by rw [hheader]; decide), hheader]

end RpcNet

end SimpleDfs.Rpc
