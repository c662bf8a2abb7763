import SimpleDfs.Base.Count
import SimpleDfs.Base.System
import SimpleDfs.Rpc.Duplicates
import SimpleDfs.Rpc.Marshall

/-!
# The references to a connection

An RPC server counts the references to each of its connections. `rpcs::got_pdu` takes one for the
job that it queues, and `rpcs::dispatch` is to drop it when the job is done; `conns_` has one for
each client, to the latest connection to it. `got_pdu` and `dispatch` are cut here where another
thread can come between, and `reachable_` and the state of the connections change at any time.

Each reference is in one place: an entry of `conns_`, a `got_pdu` that has not yet queued its job,
a queued job, or a running `dispatch`. `Balanced` says that the counter is the number of these
places. Two paths break it (`references_unbalanced`): a request for an old
instance of the server is answered without dropping the reference, and a `got_pdu` that finds
the server not reachable after it has queued its job drops the reference of that job.
`reference_balance_iff` says that no other path does.
-/

namespace SimpleDfs.Rpc

/-- A connection. -/
abbrev ConnId := ℕ

/-- `rpcs::djob_t`: a PDU that has come on a connection. -/
structure Job where
  /-- The connection. -/
  conn : ConnId
  /-- The PDU. -/
  buf : Bytes
  deriving DecidableEq, Repr

/-- Where a `dispatch` is. -/
inductive DispatchPc where
  /-- It saves the latest connection to the client. -/
  | save
  /-- It calls `checkduplicate_and_update`. -/
  | classify
  /-- It runs the handler. -/
  | handler
  /-- It gets the latest connection to the client, for the reply. -/
  | latest
  /-- It has sent the reply. -/
  | sent
  deriving DecidableEq, Repr

/-- A `dispatch` that is running. -/
structure Dispatch where
  /-- The connection that it has a reference to. -/
  conn : ConnId
  /-- The header of the request. -/
  h : ReqHeader
  /-- Where it is. -/
  pc : DispatchPc
  deriving DecidableEq, Repr

/-- A `dispatch` that has found the handler. A client with the nonce `0` does not ask for
at-most-once logic. -/
def Dispatch.start (c : ConnId) (h : ReqHeader) : Dispatch :=
  ⟨c, h, if h.clt_nonce = 0 then .handler else .save⟩

/-- A `got_pdu` after its call of `addObjJob`. -/
structure Added where
  /-- The job. -/
  job : Job
  /-- The job was queued. -/
  succ : Bool
  deriving DecidableEq, Repr

/-- The state of `rpcs`, with its threads. -/
structure Rpcs where
  /-- The nonce of this instance of the server. -/
  nonce_ : UInt32
  /-- The procedures that are registered. -/
  procs_ : Int32 → Bool
  /-- Whether the server takes requests. -/
  reachable_ : Bool
  /-- The reply windows. -/
  reply_window_ : Windows
  /-- The latest connection to each client. -/
  conns_ : StdMap ℕ ConnId
  /-- `refno_` of each connection. -/
  refno_ : ConnId → ℕ
  /-- `dead_` of each connection. -/
  dead_ : ConnId → Bool
  /-- `create_time_` of each connection. -/
  create_time_ : ConnId → ℕ
  /-- The jobs for which `got_pdu` has taken a reference and which it has not queued yet. -/
  adding : List Job
  /-- The `got_pdu` calls that look at `reachable_` next. -/
  added : List Added
  /-- The jobs of `dispatchpool_`. -/
  queue : List Job
  /-- The `dispatch` calls that are running. -/
  running : List Dispatch

/-- What can happen next. -/
inductive RpcsEvent where
  /-- `set_reachable`. -/
  | setReachable (r : Bool)
  /-- A connection breaks. -/
  | dies (c : ConnId)
  /-- `got_pdu` is called, and takes a reference. -/
  | gotPdu (c : ConnId) (b : Bytes)
  /-- `got_pdu` adds its job to the pool, which fails when the pool is full. -/
  | addObjJob (j : Job) (succ : Bool)
  /-- `got_pdu` looks at `reachable_` again and returns. -/
  | gotReturns (j : Job) (succ : Bool)
  /-- A thread of the pool takes the next job. -/
  | dispatch
  /-- A running `dispatch` goes on; `b` is the reply if the handler returns. -/
  | proceeds (d : Dispatch) (b : Bytes)
  deriving DecidableEq, Repr

namespace Rpcs

/-- `connection::incref`. -/
def incref (s : Rpcs) (c : ConnId) : Rpcs :=
  { s with refno_ := Function.update s.refno_ c (s.refno_ c + 1) }

/-- `connection::decref`, which aborts when there is no reference. -/
def decref (s : Rpcs) (c : ConnId) : Option Rpcs :=
  if s.refno_ c = 0 then none
  else some { s with refno_ := Function.update s.refno_ c (s.refno_ c - 1) }

/-- `rpcs::got_pdu` up to the call of `addObjJob`. -/
def gotPdu (s : Rpcs) (c : ConnId) (b : Bytes) : Rpcs :=
  if s.reachable_ then { s.incref c with adding := ⟨c, b⟩ :: s.adding } else s

/-- `rpcs::got_pdu` calls `addObjJob`. -/
def addObjJob (s : Rpcs) (j : Job) (succ : Bool) : Option Rpcs :=
  if j ∈ s.adding then
    some { s with
      adding := s.adding.erase j
      added := ⟨j, succ⟩ :: s.added
      queue := if succ then s.queue ++ [j] else s.queue }
  else none

/-- `rpcs::got_pdu` from the return of `addObjJob` on. When it deletes a job that is queued, a
thread of the pool will still find the connection in it. -/
def gotReturns (s : Rpcs) (j : Job) (succ : Bool) : Option Rpcs :=
  if ⟨j, succ⟩ ∈ s.added then
    let s := { s with added := s.added.erase ⟨j, succ⟩ }
    if !succ || !s.reachable_ then s.decref j.conn else some s
  else none

/-- The header of a request, and whether it could be read. -/
def header (b : Bytes) : ReqHeader × Bool :=
  let got := (Unmarshall.ofPdu b).unpackReqHeader
  (got.1, got.2.ok)

/-- The request is for another instance of the server. -/
def oldServer (s : Rpcs) (h : ReqHeader) : Bool := h.srv_nonce != 0 && h.srv_nonce != s.nonce_

/-- `rpcs::dispatch` up to the look at the client. -/
def dispatch (s : Rpcs) : Option Rpcs :=
  match s.queue with
  | [] => none
  | j :: queue =>
    let s := { s with queue := queue }
    let h := (header j.buf).1
    if (header j.buf).2 = false then s.decref j.conn
    else if s.oldServer h then some s
    else if s.procs_ h.proc = false then none
    else some { s with running := .start j.conn h :: s.running }

/-- A running `dispatch` goes on. -/
def goto (s : Rpcs) (d d' : Dispatch) : Rpcs := { s with running := d' :: s.running.erase d }

/-- `rpcs::dispatch` saves the latest connection to the client. -/
def saveConn (s : Rpcs) (d : Dispatch) : Option Rpcs :=
  let clt := d.h.clt_nonce.toNat
  let saved : Option Rpcs :=
    match s.conns_.find clt with
    | none => some { s.incref d.conn with conns_ := s.conns_.insert clt d.conn }
    | some c =>
      if s.create_time_ c < s.create_time_ d.conn then
        (s.decref c).map fun s => { s.incref d.conn with conns_ := s.conns_.insert clt d.conn }
      else some s
  saved.map fun s => s.goto d { d with pc := .classify }

/-- `rpcs::dispatch` calls `checkduplicate_and_update`; an answer other than `NEW` is sent at once.
-/
def classify (s : Rpcs) (d : Dispatch) : Rpcs :=
  let call := WindowCall.request d.h.clt_nonce.toNat d.h.xid.toUInt32.toNat
    d.h.xid_rep.toUInt32.toNat
  let stat := (s.reply_window_.answer d.h.clt_nonce.toNat d.h.xid.toUInt32.toNat
    d.h.xid_rep.toUInt32.toNat).1
  { s.goto d { d with pc := if stat = .NEW then .handler else .sent } with
    reply_window_ := s.reply_window_.call call }

/-- The handler returns, and `rpcs::dispatch` calls `add_reply`. -/
def reply (s : Rpcs) (d : Dispatch) (b : Bytes) : Rpcs :=
  let call := WindowCall.reply d.h.clt_nonce.toNat d.h.xid.toUInt32.toNat b b.length
  { s.goto d { d with pc := .latest } with
    reply_window_ := if d.h.clt_nonce = 0 then s.reply_window_ else s.reply_window_.call call }

/-- `rpcs::dispatch` gets the latest connection to the client, if its own one is dead. Without one
in `conns_`, it follows a null pointer. -/
def latest (s : Rpcs) (d : Dispatch) : Option Rpcs :=
  let saved := s.conns_.find d.h.clt_nonce.toNat
  if s.dead_ d.conn = true ∧ saved ≠ some d.conn then
    saved.bind fun c => (s.decref d.conn).map fun s =>
      (s.incref c).goto d { d with conn := c, pc := .sent }
  else some (s.goto d { d with pc := .sent })

/-- The end of `rpcs::dispatch`. -/
def finish (s : Rpcs) (d : Dispatch) : Option Rpcs :=
  { s with running := s.running.erase d }.decref d.conn

/-- The next step of a running `dispatch`. -/
def proceeds (s : Rpcs) (d : Dispatch) (b : Bytes) : Option Rpcs :=
  if d ∈ s.running then
    match d.pc with
    | .save => s.saveConn d
    | .classify => some (s.classify d)
    | .handler => some (s.reply d b)
    | .latest => s.latest d
    | .sent => s.finish d
  else none

/-- The state after an event. -/
def next (s : Rpcs) : RpcsEvent → Option Rpcs
  | .setReachable r => some { s with reachable_ := r }
  | .dies c => some { s with dead_ := Function.update s.dead_ c true }
  | .gotPdu c b => some (s.gotPdu c b)
  | .addObjJob j succ => s.addObjJob j succ
  | .gotReturns j succ => s.gotReturns j succ
  | .dispatch => s.dispatch
  | .proceeds d b => s.proceeds d b

/-- The number of places that have a reference to the connection, apart from its listener. -/
def places (s : Rpcs) (c : ConnId) : ℕ :=
  s.conns_.entries.countP (fun e => e.2 = c) + s.adding.countP (fun j => j.conn = c) +
    s.added.countP (fun a => a.job.conn = c ∧ a.succ = false) +
    s.queue.countP (fun j => j.conn = c) + s.running.countP (fun d => d.conn = c)

/-- No `got_pdu` and no `dispatch` is running, and no job is queued. -/
def Quiet (s : Rpcs) : Prop :=
  s.adding = [] ∧ s.added = [] ∧ s.queue = [] ∧ s.running = []

instance (s : Rpcs) : Decidable s.Quiet := inferInstanceAs (Decidable (_ ∧ _ ∧ _ ∧ _))

/-- Every reference is in one place. A connection starts with one reference. -/
def Balanced (s : Rpcs) : Prop := ∀ c, s.refno_ c = 1 + s.places c

end Rpcs

/-- A server that has not got any request. Its nonce, its procedures and its connections may be any.
-/
def rpcsSystem : System Rpcs RpcsEvent where
  init s := s.conns_ = .empty ∧ s.refno_ = (fun _ => 1) ∧ s.Quiet
  step := Rpcs.next

/-- The next job is not for an old instance of the server, and the server is still reachable when a
`got_pdu` looks again after it has queued its job. -/
def Accounted (s : Rpcs) : RpcsEvent → Prop
  | .gotReturns _ succ => succ = true → s.reachable_ = true
  | .dispatch => ∀ j ∈ s.queue.head?, (Rpcs.header j.buf).2 = true →
    s.oldServer (Rpcs.header j.buf).1 = false
  | .setReachable _ | .dies _ | .gotPdu .. | .addObjJob .. | .proceeds .. => True

instance (s : Rpcs) : ∀ e, Decidable (Accounted s e)
  | .gotReturns _ succ => inferInstanceAs (Decidable (succ = true → s.reachable_ = true))
  | .dispatch => inferInstanceAs (Decidable (∀ j ∈ s.queue.head?, _))
  | .setReachable _ | .dies _ | .gotPdu .. | .addObjJob .. | .proceeds .. => isTrue trivial

/-! ## What a step does to the references -/

/-- The counters change by as much as the places do. -/
def KeepsBalance (s s' : Rpcs) : Prop := ∀ c, s'.refno_ c + s.places c = s.refno_ c + s'.places c

namespace Rpcs

variable {s s' : Rpcs} {c : ConnId} {j : Job} {d : Dispatch} {succ : Bool}

/-- A step keeps the balance exactly when counters and places change alike. -/
theorem balanced_iff (h : s.Balanced) : s'.Balanced ↔ KeepsBalance s s' := by
  refine forall_congr' fun c => ?_
  have hc := h c
  omega

/-- What `incref` does. -/
theorem refno_incref (s : Rpcs) (c k : ConnId) :
    (s.incref c).refno_ k = s.refno_ k + if c = k then 1 else 0 := by
  unfold incref
  by_cases hk : c = k
  · subst hk
    simp
  · simp [Function.update_of_ne (Ne.symm hk), hk]

/-- What `decref` does. -/
theorem decref_spec (h : s.decref c = some s') : ∃ refno, s' = { s with refno_ := refno } ∧
    ∀ k, refno k + (if c = k then 1 else 0) = s.refno_ k := by
  unfold decref at h
  split_ifs at h with hzero
  obtain rfl := Option.some.inj h
  refine ⟨_, rfl, fun k => ?_⟩
  by_cases hk : c = k
  · subst hk
    simp
    omega
  · simp [Function.update_of_ne (Ne.symm hk), hk]

/-- The references of the running calls when one goes on. -/
theorem countP_goto (h : d ∈ s.running) (d' : Dispatch) (k : ConnId) :
    (s.goto d d').running.countP (fun d => d.conn = k) + (if d.conn = k then 1 else 0) =
      s.running.countP (fun d => d.conn = k) + if d'.conn = k then 1 else 0 := by
  have herase := countP_erase_add (p := fun d => decide (d.conn = k)) h
  simp only [decide_eq_true_eq] at herase
  simp only [goto, List.countP_cons, decide_eq_true_eq]
  omega

/-- The references of `conns_` after an assignment. -/
theorem countP_conns_insert (s : Rpcs) (clt : ℕ) (c k : ConnId) :
    (s.conns_.insert clt c).entries.countP (fun e => e.2 = k) +
      (if s.conns_.find clt = some k then 1 else 0) =
      s.conns_.entries.countP (fun e => e.2 = k) + if c = k then 1 else 0 := by
  have hinsert := s.conns_.countP_insert (fun v => decide (v = k)) clt c
  have hany : (s.conns_.find clt).any (fun v => decide (v = k)) = true ↔
      s.conns_.find clt = some k := by
    cases s.conns_.find clt <;> simp
  simp only [hany, decide_eq_true_eq] at hinsert
  exact hinsert

/-- `got_pdu` takes a reference. -/
theorem keeps_gotPdu (s : Rpcs) (c : ConnId) (b : Bytes) : KeepsBalance s (s.gotPdu c b) := by
  intro k
  unfold gotPdu
  split_ifs
  · have hrefno := s.refno_incref c k
    simp only [places, incref, List.countP_cons, decide_eq_true_eq] at hrefno ⊢
    omega
  · rfl

/-- The reference goes to the queue with the job. -/
theorem keeps_addObjJob (h : s.addObjJob j succ = some s') : KeepsBalance s s' := by
  have hmem : j ∈ s.adding := by
    by_contra hnot
    rw [addObjJob, if_neg hnot] at h
    cases h
  rw [addObjJob, if_pos hmem] at h
  obtain rfl := Option.some.inj h
  intro k
  have herase := countP_erase_add (p := fun j => decide (j.conn = k)) hmem
  simp only [decide_eq_true_eq] at herase
  cases succ with
  | false =>
    simp only [places, List.countP_cons, decide_eq_true_eq, and_true, Bool.false_eq_true, if_false]
    omega
  | true =>
    simp only [places, List.countP_cons, List.countP_append, List.countP_nil, decide_eq_true_eq,
      Bool.true_eq_false, and_false, if_false, if_true]
    omega

/-- The references of a `got_pdu` that returns. -/
theorem countP_added (h : ⟨j, succ⟩ ∈ s.added) (k : ConnId) :
    (s.added.erase ⟨j, succ⟩).countP (fun a => a.job.conn = k ∧ a.succ = false) +
      (if j.conn = k ∧ succ = false then 1 else 0) =
      s.added.countP (fun a => a.job.conn = k ∧ a.succ = false) := by
  have herase := countP_erase_add (p := fun a => decide (a.job.conn = k ∧ a.succ = false)) h
  simp only [decide_eq_true_eq] at herase
  exact herase

/-- `got_pdu` drops the reference again when the job was not queued; it must not when it was. -/
theorem keeps_gotReturns_iff (h : s.gotReturns j succ = some s') :
    KeepsBalance s s' ↔ (succ = true → s.reachable_ = true) := by
  unfold gotReturns at h
  split_ifs at h with hmem
  have hadded := countP_added hmem
  dsimp only at h
  split_ifs at h with hdrop
  · obtain ⟨refno, rfl, hrefno⟩ := decref_spec h
    dsimp only at hrefno
    cases succ with
    | false =>
      refine iff_of_true (fun k => ?_) (fun hfalse => Bool.noConfusion hfalse)
      have hk := hadded k
      have hr := hrefno k
      simp only [and_true] at hk
      simp only [places]
      omega
    | true =>
      -- The queue has the reference that is dropped.
      have hreachable : s.reachable_ = false := by simpa using hdrop
      refine iff_of_false (fun hkeeps => ?_) (by simp [hreachable])
      have hk := hadded j.conn
      have hr := hrefno j.conn
      have hc := hkeeps j.conn
      simp only [Bool.true_eq_false, and_false, if_false] at hk
      simp only [places, if_true] at hc hr
      omega
  · obtain rfl := Option.some.inj h
    have hboth : succ = true ∧ s.reachable_ = true := by simpa using hdrop
    refine iff_of_true (fun k => ?_) fun _ => hboth.2
    have hk := hadded k
    simp only [hboth.1, Bool.true_eq_false, and_false, if_false] at hk
    simp only [places, hboth.1]
    omega

/-- A job that is taken from the queue drops its reference, or keeps it while it runs, unless it is
for an old instance of the server. -/
theorem keeps_dispatch_iff (h : s.dispatch = some s') :
    KeepsBalance s s' ↔
      ∀ j ∈ s.queue.head?, (header j.buf).2 = true → s.oldServer (header j.buf).1 = false
    := by
  unfold dispatch at h
  cases hqueue : s.queue with
  | nil =>
    rw [hqueue] at h
    cases h
  | cons j queue =>
    rw [hqueue] at h
    have hcount : ∀ k, s.queue.countP (fun j => j.conn = k) =
        queue.countP (fun j => j.conn = k) + if j.conn = k then 1 else 0 := fun k => by
      simp only [hqueue, List.countP_cons, decide_eq_true_eq]
    simp only [List.head?_cons, Option.mem_def, Option.some.injEq, forall_eq']
    dsimp only at h
    split_ifs at h with hok hold hproc
    · obtain ⟨refno, rfl, hrefno⟩ := decref_spec h
      dsimp only at hrefno
      refine iff_of_true (fun k => ?_) fun htrue => ?_
      · have hk := hcount k
        have hr := hrefno k
        simp only [places]
        omega
      · rw [hok] at htrue
        cases htrue
    · -- The reference is not dropped.
      obtain rfl := Option.some.inj h
      refine iff_of_false (fun hkeeps => ?_) fun hnot => ?_
      · have hk := hcount j.conn
        have hc := hkeeps j.conn
        simp only [places, if_true] at hk hc
        omega
      · have hold' := hnot (Bool.eq_true_of_not_eq_false hok)
        exact Bool.noConfusion (hold'.symm.trans hold)
    · obtain rfl := Option.some.inj h
      refine iff_of_true (fun k => ?_) fun _ => Bool.eq_false_iff.mpr hold
      have hk := hcount k
      simp only [places, List.countP_cons, decide_eq_true_eq, Dispatch.start]
      omega

/-- The reference to a connection that is saved. -/
theorem keeps_saveConn (hd : d ∈ s.running) (h : s.saveConn d = some s') : KeepsBalance s s' := by
  obtain ⟨s₁, h₁, rfl⟩ := Option.map_eq_some_iff.mp h
  intro k
  have hinsert := s.countP_conns_insert d.h.clt_nonce.toNat d.conn k
  have hgoto := countP_goto hd { d with pc := .classify } k
  cases hfind : s.conns_.find d.h.clt_nonce.toNat with
  | none =>
    rw [hfind] at h₁
    obtain rfl := Option.some.inj h₁
    have hrefno := s.refno_incref d.conn k
    simp only [hfind, reduceCtorEq, if_false] at hinsert
    simp only [places, incref, goto] at hgoto hrefno ⊢
    omega
  | some c =>
    rw [hfind] at h₁
    dsimp only at h₁
    split_ifs at h₁
    · -- The reference moves from the old connection to the new one.
      obtain ⟨s₂, hdecref, rfl⟩ := Option.map_eq_some_iff.mp h₁
      obtain ⟨refno, rfl, hrefno⟩ := decref_spec hdecref
      have hk := hrefno k
      have hincref := refno_incref { s with refno_ := refno } d.conn k
      simp only [hfind, Option.some.injEq] at hinsert
      simp only [places, incref, goto] at hgoto hincref ⊢
      omega
    · obtain rfl := Option.some.inj h₁
      simp only [places, goto] at hgoto ⊢
      omega

/-- The connection of the reply. -/
theorem keeps_latest (hd : d ∈ s.running) (h : s.latest d = some s') : KeepsBalance s s' := by
  intro k
  unfold latest at h
  dsimp only at h
  split_ifs at h with hdead
  · obtain ⟨c, -, h⟩ := Option.bind_eq_some_iff.mp h
    obtain ⟨s₁, hdecref, rfl⟩ := Option.map_eq_some_iff.mp h
    obtain ⟨refno, rfl, hrefno⟩ := decref_spec hdecref
    have hk := hrefno k
    have hgoto := countP_goto hd { d with conn := c, pc := .sent } k
    have hincref := refno_incref { s with refno_ := refno } c k
    simp only [places, incref, goto] at hgoto hincref ⊢
    omega
  · obtain rfl := Option.some.inj h
    have hgoto := countP_goto hd { d with pc := .sent } k
    simp only [places, goto] at hgoto ⊢
    omega

/-- The end of `dispatch` drops its reference. -/
theorem keeps_finish (hd : d ∈ s.running) (h : s.finish d = some s') : KeepsBalance s s' := by
  obtain ⟨refno, rfl, hrefno⟩ := decref_spec h
  intro k
  have hk := hrefno k
  have herase := countP_erase_add (p := fun d => decide (d.conn = k)) hd
  simp only [decide_eq_true_eq] at herase
  simp only [places] at hk ⊢
  omega

/-- Every step of a running `dispatch`. -/
theorem keeps_proceeds {b : Bytes} (h : s.proceeds d b = some s') : KeepsBalance s s' := by
  unfold proceeds at h
  split_ifs at h with hd
  split at h
  · exact keeps_saveConn hd h
  · obtain rfl := Option.some.inj h
    intro k
    have hgoto := countP_goto hd { d with pc := if (s.reply_window_.answer d.h.clt_nonce.toNat
      d.h.xid.toUInt32.toNat d.h.xid_rep.toUInt32.toNat).1 = .NEW then .handler else .sent } k
    simp only [places, classify, goto] at hgoto ⊢
    omega
  · obtain rfl := Option.some.inj h
    intro k
    have hgoto := countP_goto hd { d with pc := .latest } k
    simp only [places, reply, goto] at hgoto ⊢
    omega
  · exact keeps_latest hd h
  · exact keeps_finish hd h

/-- Which steps keep counters and places alike. -/
theorem keeps_next_iff {e : RpcsEvent} (h : s.next e = some s') :
    KeepsBalance s s' ↔ Accounted s e := by
  cases e with
  | setReachable r | dies c =>
    obtain rfl := Option.some.inj h
    exact iff_of_true (fun _ => rfl) trivial
  | gotPdu c b =>
    obtain rfl := Option.some.inj h
    exact iff_of_true (s.keeps_gotPdu c b) trivial
  | addObjJob j succ => exact iff_of_true (keeps_addObjJob h) trivial
  | gotReturns j succ => exact keeps_gotReturns_iff h
  | dispatch => exact keeps_dispatch_iff h
  | proceeds d b => exact iff_of_true (keeps_proceeds h) trivial

end Rpcs

/-! ## The balance -/

/-- The balance holds in every state that is reached without the two paths. -/
theorem balanced_of_reachable {s : Rpcs} (h : rpcsSystem.Reachable Accounted s) : s.Balanced := by
  refine h.invariant (I := Rpcs.Balanced) (fun s hinit => ?_) fun s e s' hI hG hstep => ?_
  · obtain ⟨hconns, hrefno, hadding, hadded, hqueue, hrunning⟩ := hinit
    intro c
    rw [hrefno, Rpcs.places, hconns, hadding, hadded, hqueue, hrunning]
    rfl
  · exact (Rpcs.balanced_iff hI).mpr ((Rpcs.keeps_next_iff hstep).mpr hG)

/-- A step from a balanced state keeps the balance exactly when it is not one of the two paths: a
request for an old instance of the server, and a `got_pdu` that finds the server not reachable after
it has queued its job. Without them, once all jobs have run, each connection has its first reference
and one for each entry of `conns_`. -/
theorem reference_balance_iff (s : Rpcs) :
    (s.Balanced → ∀ e s', rpcsSystem.step s e = some s' → (s'.Balanced ↔ Accounted s e)) ∧
    (rpcsSystem.Reachable Accounted s → s.Balanced ∧
      (s.Quiet → ∀ c, s.refno_ c = 1 + s.conns_.entries.countP fun e => e.2 = c)) := by
  constructor
  · intro hbalanced e s' hstep
    exact (Rpcs.balanced_iff hbalanced).trans (Rpcs.keeps_next_iff hstep)
  · intro hreachable
    have hbalanced := balanced_of_reachable hreachable
    refine ⟨hbalanced, ?_⟩
    rintro ⟨hadding, hadded, hqueue, hrunning⟩ c
    have hc := hbalanced c
    rw [Rpcs.places, hadding, hadded, hqueue, hrunning] at hc
    exact hc

/-- A server with the nonce `5` that has not got any request. -/
def Rpcs.fresh : Rpcs :=
  ⟨5, fun _ => true, true, fun _ => [], .empty, fun _ => 1, fun _ => false, id, [], [], [], []⟩

/-- Request `1` of client `9` for procedure `2`, to the server with the nonce `srv_nonce`. -/
def requestTo (srv_nonce : UInt8) : Bytes :=
  [0, 0, 0, 24, 0, 0, 0, 1, 0, 0, 0, 2, 0, 0, 0, 9, 0, 0, 0, srv_nonce, 0, 0, 0, 0]

/-- The steps of a `dispatch` for a new request on connection `0`. -/
def newRequest : List RpcsEvent :=
  let h : ReqHeader := ⟨1, 2, 9, 5, 0⟩
  [.dispatch, .proceeds ⟨0, h, .save⟩ [], .proceeds ⟨0, h, .classify⟩ [],
   .proceeds ⟨0, h, .handler⟩ [7], .proceeds ⟨0, h, .latest⟩ [], .proceeds ⟨0, h, .sent⟩ []]

/-- A request for the server with the nonce `4` leaves a reference to its connection when all jobs
have run. When the server becomes unreachable before `got_pdu` looks again, the reference of its job
is dropped twice, and the entry of `conns_` has none. -/
theorem references_unbalanced :
    (∃ s, rpcsSystem.exec .fresh [.gotPdu 0 (requestTo 4), .addObjJob ⟨0, requestTo 4⟩ true,
        .gotReturns ⟨0, requestTo 4⟩ true, .dispatch] = some s ∧
      s.Quiet ∧ s.refno_ 0 = 2 ∧ s.conns_.entries.countP (fun e => e.2 = 0) = 0) ∧
    ∃ s, rpcsSystem.exec .fresh ([.gotPdu 0 (requestTo 5), .addObjJob ⟨0, requestTo 5⟩ true,
        .setReachable false, .gotReturns ⟨0, requestTo 5⟩ true] ++ newRequest) = some s ∧
      s.Quiet ∧ s.refno_ 0 = 1 ∧ s.conns_.entries.countP (fun e => e.2 = 0) = 1 := by
  constructor
  · have hrun : (rpcsSystem.exec .fresh [.gotPdu 0 (requestTo 4),
        .addObjJob ⟨0, requestTo 4⟩ true, .gotReturns ⟨0, requestTo 4⟩ true, .dispatch]).map
        (fun s => (decide s.Quiet, s.refno_ 0, s.conns_.entries.countP fun e => e.2 = 0)) =
        some (true, 2, 0) := by
      decide
    obtain ⟨s, hexec, hval⟩ := Option.map_eq_some_iff.mp hrun
    simp only [Prod.mk.injEq, decide_eq_true_eq] at hval
    exact ⟨s, hexec, hval⟩
  · have hrun : (rpcsSystem.exec .fresh ([.gotPdu 0 (requestTo 5),
        .addObjJob ⟨0, requestTo 5⟩ true, .setReachable false, .gotReturns ⟨0, requestTo 5⟩ true] ++
        newRequest)).map
        (fun s => (decide s.Quiet, s.refno_ 0, s.conns_.entries.countP fun e => e.2 = 0)) =
        some (true, 1, 1) := by
      decide
    obtain ⟨s, hexec, hval⟩ := Option.map_eq_some_iff.mp hrun
    simp only [Prod.mk.injEq, decide_eq_true_eq] at hval
    exact ⟨s, hexec, hval⟩

/-- A new request leaves one reference for its client. -/
theorem reference_balance_new_request : ∃ s, rpcsSystem.Reachable Accounted s ∧ s.Quiet ∧
    s.conns_.find 9 = some 0 ∧ s.refno_ 0 = 1 + s.conns_.entries.countP fun e => e.2 = 0 := by
  have hrun : (rpcsSystem.execGuarded Accounted .fresh ([.gotPdu 0 (requestTo 5),
      .addObjJob ⟨0, requestTo 5⟩ true, .gotReturns ⟨0, requestTo 5⟩ true] ++ newRequest)).map
      (fun s => (decide s.Quiet, s.conns_.find 9)) = some (true, some 0) := by
    decide
  obtain ⟨s, hexec, hval⟩ := Option.map_eq_some_iff.mp hrun
  simp only [Prod.mk.injEq, decide_eq_true_eq] at hval
  have hinit : rpcsSystem.init Rpcs.fresh := ⟨rfl, rfl, rfl, rfl, rfl, rfl⟩
  have hreachable := System.Reachable.of_execGuarded hexec hinit
  exact ⟨s, hreachable, hval.1, hval.2, ((reference_balance_iff s).2 hreachable).2 hval.1 0⟩

end SimpleDfs.Rpc
