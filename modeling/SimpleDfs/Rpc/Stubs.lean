import SimpleDfs.Rpc.RoundTrip
import Mathlib.Logic.Function.Basic

/-!
# The stubs of clients and servers

`rpcc::call` with `rpcs::reg`, and `rsm_client::call` with `rsm::reg` and `rsm::execute`. The
overloads for the different numbers of arguments are near copies of each other. What can differ
between them is which arguments are marshalled and which variables are extracted, and in which
order: this is what a `Stub` records, one for each overload. The overload of `rsm::reg` for five
arguments extracts only four before it verifies that nothing is left, so that every call of it stops
the server (`five_arguments_abort`). All others agree, as long as the messages fit (`agrees_iff`).
-/

namespace SimpleDfs.Rpc

/-- The arguments of a method, or the variables for them. -/
abbrev Args {n : ℕ} (a : Fin n → Ty) : Type := (i : Fin n) → (a i).interp

/-- Plain calls, and calls of the replicated state machine. -/
inductive Path where
  | rpc
  | rsm
  deriving DecidableEq, Repr

/-- An overload of `call` with the overload of `reg` for the same number of arguments. -/
structure Stub where
  /-- Which `call` and `reg` it is. -/
  path : Path
  /-- The number of arguments. -/
  n : ℕ
  /-- The arguments that `call` marshals. -/
  marshals : List (Fin n)
  /-- The variables that the handler made by `reg` extracts. -/
  extracts : List (Fin n)
  deriving DecidableEq, Repr

/-- `rpcc::call` and `rpcs::reg` with one argument. -/
def rpc1 : Stub := ⟨.rpc, 1, [0], [0]⟩

/-- With two arguments. -/
def rpc2 : Stub := ⟨.rpc, 2, [0, 1], [0, 1]⟩

/-- With three arguments. -/
def rpc3 : Stub := ⟨.rpc, 3, [0, 1, 2], [0, 1, 2]⟩

/-- With four arguments. -/
def rpc4 : Stub := ⟨.rpc, 4, [0, 1, 2, 3], [0, 1, 2, 3]⟩

/-- With five arguments. -/
def rpc5 : Stub := ⟨.rpc, 5, [0, 1, 2, 3, 4], [0, 1, 2, 3, 4]⟩

/-- With six arguments. -/
def rpc6 : Stub := ⟨.rpc, 6, [0, 1, 2, 3, 4, 5], [0, 1, 2, 3, 4, 5]⟩

/-- With seven arguments. -/
def rpc7 : Stub := ⟨.rpc, 7, [0, 1, 2, 3, 4, 5, 6], [0, 1, 2, 3, 4, 5, 6]⟩

/-- `rsm_client::call` and `rsm::reg` with one argument. -/
def rsm1 : Stub := ⟨.rsm, 1, [0], [0]⟩

/-- With two arguments. -/
def rsm2 : Stub := ⟨.rsm, 2, [0, 1], [0, 1]⟩

/-- With three arguments. -/
def rsm3 : Stub := ⟨.rsm, 3, [0, 1, 2], [0, 1, 2]⟩

/-- With four arguments. -/
def rsm4 : Stub := ⟨.rsm, 4, [0, 1, 2, 3], [0, 1, 2, 3]⟩

/-- With five arguments: `a5` is marshalled, and not extracted. -/
def rsm5 : Stub := ⟨.rsm, 5, [0, 1, 2, 3, 4], [0, 1, 2, 3]⟩

/-- All overloads. -/
def offered : List Stub :=
  [rpc1, rpc2, rpc3, rpc4, rpc5, rpc6, rpc7, rsm1, rsm2, rsm3, rsm4, rsm5]

/-- `rpc_const::unmarshal_args_failure`. -/
def unmarshalArgsFailure : Int32 := -2

section Model

variable {n : ℕ} {a : Fin n → Ty}

/-- The arguments to marshal. -/
def argVals (args : Args a) (fields : List (Fin n)) : List Val := fields.map fun i => ⟨a i, args i⟩

/-- `args >> a1; args >> a2;` and so on. -/
def getArgs : List (Fin n) → Args a → Unmarshall → Args a × Unmarshall
  | [], vars, args => (vars, args)
  | i :: is, vars, args =>
    let (x, args) := get args
    getArgs is (Function.update vars i x) args

end Model

section Calls

variable (s : Stub) {a : Fin s.n → Ty} {r : Ty}
variable (meth : Args a → Int32 × r.interp) (uninit : Args a)

/-- `h1::fn` of an overload of `reg`: the variables are extracted into what was in them, the method
is invoked with them and its result is marshalled. Returned are the arguments of the invocation, if
there was one, and what the method returned. -/
def Stub.fn (args : Unmarshall) (ret : Marshall) : Option (Option (Args a) × Int32 × Marshall) :=
  let (vars, args) := getArgs s.extracts uninit args
  if args.okdone then
    let (b, r) := meth vars
    (ret.write (put r)).map fun ret => (some vars, b, ret)
  else
    match s.path with
    | .rpc => some (none, unmarshalArgsFailure, ret)
    | .rsm => none

/-- `rpcc::call` and `call1`: the message that is sent. -/
def rpccCall (memory : ℕ → UInt8) (h : ReqHeader) (args : Args a) : Option Bytes :=
  marshalled memory (.req h) (argVals args s.marshals)

/-- `rpcs::dispatch` for a new request. -/
def rpcsDispatch (memory : ℕ → UInt8) (b : Bytes) : Option (Option (Args a) × Bytes) :=
  let (h, req) := (Unmarshall.ofPdu b).unpackReqHeader
  if req.ok then
    (s.fn meth uninit req (.construct memory)).bind fun (invoked, ret, rep) =>
      if ret = unmarshalArgsFailure ∨ ret < 0 then none
      else (rep.packReplyHeader ⟨h.xid, ret⟩).map fun rep => (invoked, rep.pdu)
  else none

/-- `rpcc::got_pdu` and `call_m`: what the caller gets. -/
def rpccReply (r : Ty) (b : Bytes) : Option (Int32 × Option r.interp) :=
  let (h, rep) := (Unmarshall.ofPdu b).unpackReplyHeader
  if rep.ok then
    if h.ret < 0 then some (h.ret, none)
    else
      let (x, u) := get rep.takeIn
      if u.okdone then some (h.ret, some x) else none
  else none

/-- `rsm_client::call`: the string that is handed to `invoke`. -/
def rsmClientCall (memory : ℕ → UInt8) (args : Args a) : Option Bytes :=
  ((Marshall.construct memory).write (putAll (argVals args s.marshals))).map Marshall.str

/-- `rsm::execute`. -/
def rsmExecute (memory : ℕ → ℕ → UInt8) (req : Bytes) : Option (Option (Args a) × Bytes) :=
  (s.fn meth uninit (.ofContent (memory 0) req) (.construct (memory 1))).bind
    fun (invoked, ret, rep) =>
      ((Marshall.construct (memory 2)).write (put ret ++ put (⟨rep.str⟩ : Str))).map
        fun rep1 => (invoked, rep1.str)

/-- `rsm_client::call_m` after `invoke`: what the caller gets. -/
def rsmClientReply (memory : ℕ → ℕ → UInt8) (r : Ty) (rep : Bytes) :
    Option (Int32 × Option r.interp) :=
  let (intret, u) : Int32 × Unmarshall := get (Unmarshall.ofContent (memory 0) rep)
  if intret < 0 then some (intret, none)
  else
    let (res, u) : Str × Unmarshall := get u
    if u.okdone then
      let (x, u1) := get (Unmarshall.ofContent (memory 1) res.data)
      if u1.okdone then some (intret, some x) else none
    else none

/-- A whole call: the arguments with which the method was invoked, and what the caller gets.
`memory` is what is in the buffers that are allocated. -/
def Stub.exchange (memory : ℕ → ℕ → UInt8) (h : ReqHeader) (args : Args a) :
    Option (Option (Args a) × Int32 × Option r.interp) :=
  match s.path with
  | .rpc =>
    (rpccCall s (memory 0) h args).bind fun b =>
      (rpcsDispatch s meth uninit (memory 1) b).bind fun (invoked, b) =>
        (rpccReply r b).map fun got => (invoked, got)
  | .rsm =>
    (rsmClientCall s (memory 0) args).bind fun req =>
      (rsmExecute s meth uninit (fun i => memory (i + 1)) req).bind fun (invoked, rep) =>
        (rsmClientReply (fun i => memory (i + 4)) r rep).map fun got => (invoked, got)

/-- The method is invoked with the arguments of the caller, and the caller gets what it returned,
whatever was in the memory. -/
def Stub.Agrees (args : Args a) : Prop :=
  ∀ memory h uninit, s.exchange meth uninit memory h args =
    some (some args, (meth args).1, some (meth args).2)

/-- The messages of a call fit: the request, the result, and for the replicated state machine the
message with the result in it. -/
structure Stub.MessagesFit (args : Args a) : Prop where
  /-- The arguments. -/
  request : Fits defaultRpcSz rpcHeaderSz (sizes (argVals args s.marshals))
  /-- The result. -/
  result : Fits defaultRpcSz rpcHeaderSz (sizes [⟨r, (meth args).2⟩])
  /-- The status with the marshalled result. -/
  nested : s.path = .rsm → Fits defaultRpcSz rpcHeaderSz
    (sizes [⟨.key .int, (meth args).1⟩, ⟨.key .string, (⟨data (meth args).2⟩ : Str)⟩])

end Calls

/-! ## The handlers -/

/-- All overloads but one extract what is marshalled, and that is all arguments. -/
theorem complete_of_offered : ∀ s ∈ offered, s ≠ rsm5 →
    s.extracts = s.marshals ∧ ∀ i : Fin s.n, i ∈ s.marshals := by
  decide

section Handlers

variable {n : ℕ} {a : Fin n → Ty} {u : Unmarshall} {b : Bytes} {k : ℕ}

/-- Variables are extracted as the arguments that were marshalled. -/
theorem At.getArgs (args vars : Args a) (fields : List (Fin n)) (h : At u b k)
    (hd : bytesOf (putAll (argVals args fields)) <+: b.drop k) :
    ∃ u', getArgs fields vars u =
        (fields.foldl (fun vars i => Function.update vars i (args i)) vars, u') ∧
      At u' b (k + (bytesOf (putAll (argVals args fields))).length) := by
  induction fields generalizing u k vars with
  | nil => exact ⟨u, rfl, h⟩
  | cons i fields ih =>
    have hdata : bytesOf (putAll (argVals args (i :: fields))) =
        data (args i) ++ bytesOf (putAll (argVals args fields)) := by
      unfold argVals putAll
      rw [List.map_cons, List.flatMap_cons, bytesOf_append]
      rfl
    rw [hdata] at hd ⊢
    obtain ⟨u₁, h₁, hat, hd⟩ := h.get (decodes (args i)) hd
    obtain ⟨u₂, h₂, hat⟩ := ih (Function.update vars i (args i)) hat hd
    rw [List.length_append, ← Nat.add_assoc]
    refine ⟨u₂, ?_, hat⟩
    rw [Rpc.getArgs, h₁]
    dsimp only
    rw [h₂, List.foldl_cons]

/-- A variable that is assigned holds the argument. -/
theorem foldl_update_apply {args vars : Args a} {fields : List (Fin n)} {i : Fin n}
    (h : i ∈ fields ∨ vars i = args i) :
    fields.foldl (fun vars i => Function.update vars i (args i)) vars i = args i := by
  induction fields generalizing vars with
  | nil => exact h.resolve_left (List.not_mem_nil)
  | cons j fields ih =>
    refine ih ?_
    by_cases hij : i = j
    · subst hij
      exact Or.inr (Function.update_self ..)
    · refine h.imp (fun hmem => (List.mem_cons.mp hmem).resolve_left hij) fun hvar => ?_
      exact (Function.update_of_ne hij ..).trans hvar

end Handlers

section Exchange

variable {s : Stub} {a : Fin s.n → Ty} {r : Ty}
variable {meth : Args a → Int32 × r.interp} {args uninit : Args a}
variable {u : Unmarshall} {b : Bytes} {k : ℕ}

/-- A handler that extracts what was marshalled invokes the method with the arguments. -/
theorem fn_of_complete (hfields : s.extracts = s.marshals) (hall : ∀ i, i ∈ s.marshals)
    (hat : At u b k) (hdata : b.drop k = bytesOf (putAll (argVals args s.marshals)))
    (ret : Marshall) : s.fn meth uninit u ret =
      (ret.write (put (meth args).2)).map fun ret => (some args, (meth args).1, ret) := by
  obtain ⟨u', hget, hat'⟩ := hat.getArgs args uninit s.marshals (hdata ▸ List.prefix_rfl)
  have hvars : s.marshals.foldl (fun vars i => Function.update vars i (args i)) uninit = args :=
    funext fun i => foldl_update_apply (Or.inl (hall i))
  have hlen : k + (bytesOf (putAll (argVals args s.marshals))).length = b.length := by
    have hle := hat.le
    rw [← hdata, List.length_drop]
    omega
  rw [hlen] at hat'
  unfold Stub.fn
  rw [hfields, hget, hvars]
  dsimp only
  rw [if_pos hat'.okdone]

/-- A handler of the replicated state machine that leaves the last argument stops the server. -/
theorem fn_of_left {i : Fin s.n} (hpath : s.path = .rsm) (hleft : s.marshals = s.extracts ++ [i])
    (hat : At u b k) (hdata : b.drop k = bytesOf (putAll (argVals args s.marshals)))
    (ret : Marshall) : s.fn meth uninit u ret = none := by
  have hsplit : bytesOf (putAll (argVals args s.marshals)) =
      bytesOf (putAll (argVals args s.extracts)) ++ data (args i) := by
    unfold argVals putAll
    rw [hleft, List.map_append, List.flatMap_append, bytesOf_append, List.map_singleton,
      List.flatMap_singleton]
    rfl
  rw [hsplit] at hdata
  obtain ⟨u', hget, hat'⟩ := hat.getArgs args uninit s.extracts ⟨_, hdata.symm⟩
  have hlt : k + (bytesOf (putAll (argVals args s.extracts))).length < b.length := by
    have hpos := data_pos (args i)
    have hlen := congrArg List.length hdata
    rw [List.length_drop, List.length_append] at hlen
    omega
  unfold Stub.fn
  rw [hget]
  dsimp only
  rw [hat'.not_okdone hlt, if_neg Bool.false_ne_true, hpath]

/-- The writes for a single value. -/
theorem putAll_singleton (v : Val) : putAll [v] = put v.2 := List.flatMap_singleton ..

/-- A result that is not negative is no failure. -/
theorem not_failure {x : Int32} (h : 0 ≤ x) : ¬ (x = unmarshalArgsFailure ∨ x < 0) := by
  rintro (rfl | hlt)
  · exact absurd h (by decide)
  · exact absurd h (Int32.not_le.mpr hlt)

/-! ## Plain calls -/

/-- The server answers a request with the result of the method. -/
theorem rpcsDispatch_eq (hfields : s.extracts = s.marshals) (hall : ∀ i, i ∈ s.marshals)
    (hret : 0 ≤ (meth args).1) {h : ReqHeader} (hb : Message b (.req h) (argVals args s.marshals))
    (memory : ℕ → UInt8) : rpcsDispatch s meth uninit memory b =
      (marshalled memory (.reply ⟨h.xid, (meth args).1⟩) [⟨r, (meth args).2⟩]).map
        fun b => (some args, b) := by
  obtain ⟨u, hu, hat⟩ := hb.at_zero.unpackReqHeader hb.header_le hb.header
  unfold rpcsDispatch marshalled
  rw [hu, putAll_singleton]
  dsimp only
  rw [if_pos hat.ok, fn_of_complete hfields hall hat hb.values]
  cases (Marshall.construct memory).write (put (meth args).2) with
  | none => rfl
  | some ret =>
    simp only [Option.map_some, Option.bind_some, if_neg (not_failure hret), Option.map_map]
    rfl

/-- The caller gets the result in the reply. -/
theorem rpccReply_eq {h : ReplyHeader} {x : r.interp} (hret : 0 ≤ h.ret)
    (hb : Message b (.reply h) [⟨r, x⟩]) : rpccReply r b = some (h.ret, some x) := by
  obtain ⟨u, hu, hat⟩ := hb.at_zero.unpackReplyHeader hb.header_le hb.header
  have htaken : At u.takeIn b rpcHeaderSz :=
    ⟨hat.buf, hat.sz, rfl, by
      have hle := hb.header_le
      simp only [Unmarshall.takeIn, hat.sz, decide_eq_true_eq]
      omega, hb.header_le, hat.small⟩
  have hvalues : b.drop rpcHeaderSz = data x := by
    rw [hb.values, putAll_singleton]
    rfl
  obtain ⟨u', hx, hat'⟩ := decodes x htaken (hvalues ▸ List.prefix_rfl)
  have hend : At u' b b.length := by
    have hlen := hb.length
    unfold totalSize at hlen
    rw [putAll_singleton] at hlen
    rw [hlen]
    exact hat'
  unfold rpccReply
  rw [hu]
  dsimp only
  rw [if_pos hat.ok, if_neg (Int32.not_lt.mpr hret), hx]
  dsimp only
  rw [if_pos hend.okdone]

/-! ## The replicated state machine -/

/-- Writes that fit give a string of their bytes. -/
theorem str_of_fits (memory : ℕ → UInt8) {cs : List Chunk}
    (h : Fits defaultRpcSz rpcHeaderSz (cs.map Chunk.size)) :
    ∃ m, (Marshall.construct memory).write cs = some m ∧ m.str = bytesOf cs ∧
      rpcHeaderSz + (bytesOf cs).length < intLimit := by
  obtain ⟨capa, hwrite, hsized⟩ := Marshall.write_of_fits (Marshall.sized_construct memory) h
  exact ⟨_, hwrite, Marshall.str_store memory _, hsized.le.trans_lt hsized.small⟩

/-- A string is taken as the contents of an `unmarshall`. -/
theorem At.ofContent (memory : ℕ → UInt8) {c : Bytes} (h : rpcHeaderSz + c.length < intLimit) :
    ∃ b, At (.ofContent memory c) b rpcHeaderSz ∧ b.drop rpcHeaderSz = c ∧
      b.length = rpcHeaderSz + c.length := by
  have hlen : (Unmarshall.ofContent memory c).buf.length = rpcHeaderSz + c.length := by
    unfold Unmarshall.ofContent
    rw [List.length_append, List.length_map, List.length_range]
  have hdrop : (Unmarshall.ofContent memory c).buf.drop rpcHeaderSz = c :=
    List.drop_left' (by rw [List.length_map, List.length_range])
  refine ⟨_, ⟨rfl, ?_, rfl, rfl, ?_, ?_⟩, hdrop, hlen⟩
  · rw [hlen]
    show ((c.length : ℤ) + rpcHeaderSz) = _
    omega
  · rw [hlen]
    exact Nat.le_add_right _ _
  · rw [hlen]
    exact h

/-- The caller gets the result out of the two messages that are nested. -/
theorem rsmClientReply_eq {x : r.interp} {ret : Int32} (hret : 0 ≤ ret) (memory : ℕ → ℕ → UInt8)
    (hx : rpcHeaderSz + (data x).length < intLimit)
    (hrep : rpcHeaderSz + (data ret ++ data (⟨data x⟩ : Str)).length < intLimit) :
    rsmClientReply memory r (data ret ++ data (⟨data x⟩ : Str)) = some (ret, some x) := by
  obtain ⟨b, hat, hdrop, hlen⟩ := At.ofContent (memory 0) hrep
  have hstands : data ret ++ data (⟨data x⟩ : Str) <+: b.drop rpcHeaderSz := hdrop ▸ List.prefix_rfl
  obtain ⟨u₁, h₁, hat, hd⟩ := hat.get (decodes ret) hstands
  obtain ⟨u₂, h₂, hat⟩ := decodes _ hat hd
  have hend : At u₂ b b.length := by
    rw [hlen, List.length_append, ← Nat.add_assoc]
    exact hat
  obtain ⟨b', hat', hdrop', hlen'⟩ := At.ofContent (memory 1) hx
  obtain ⟨u₃, h₃, hat'⟩ := decodes x hat' (hdrop' ▸ List.prefix_rfl)
  have hend' : At u₃ b' b'.length := by
    rw [hlen']
    exact hat'
  unfold rsmClientReply
  rw [h₁]
  dsimp only
  rw [if_neg (Int32.not_lt.mpr hret), h₂]
  dsimp only
  rw [if_pos hend.okdone, h₃]
  dsimp only
  rw [if_pos hend'.okdone]

/-- The state machine executes a request, and the answer holds the status and the result. -/
theorem rsmExecute_eq (hfields : s.extracts = s.marshals) (hall : ∀ i, i ∈ s.marshals)
    (hrequest : Fits defaultRpcSz rpcHeaderSz (sizes (argVals args s.marshals)))
    (hresult : Fits defaultRpcSz rpcHeaderSz (sizes [⟨r, (meth args).2⟩]))
    (memory : ℕ → ℕ → UInt8) :
    rsmExecute s meth uninit memory (bytesOf (putAll (argVals args s.marshals))) =
      ((Marshall.construct (memory 2)).write (putAll [⟨.key .int, (meth args).1⟩,
        ⟨.key .string, (⟨data (meth args).2⟩ : Str)⟩])).map fun rep1 => (some args, rep1.str) := by
  obtain ⟨-, -, -, hsmall⟩ := str_of_fits (memory 0) hrequest
  obtain ⟨b, hat, hdrop, -⟩ := At.ofContent (memory 0) hsmall
  unfold sizes at hresult
  rw [putAll_singleton] at hresult
  obtain ⟨m, hm, hstr, -⟩ := str_of_fits (memory 1) hresult
  have hputs : putAll [⟨.key .int, (meth args).1⟩, ⟨.key .string, (⟨data (meth args).2⟩ : Str)⟩] =
      put (meth args).1 ++ put (⟨m.str⟩ : Str) := by
    rw [hstr]
    show put (meth args).1 ++ (put (⟨data (meth args).2⟩ : Str) ++ []) = _
    rw [List.append_nil]
    rfl
  unfold rsmExecute
  rw [fn_of_complete hfields hall hat hdrop, hm, hputs]
  rfl

/-! ## Agreement -/

/-- A plain call of a complete stub comes to its end exactly if the messages fit. -/
theorem exchange_rpc (hpath : s.path = .rpc) (hfields : s.extracts = s.marshals)
    (hall : ∀ i, i ∈ s.marshals) (hret : 0 ≤ (meth args).1) (memory : ℕ → ℕ → UInt8)
    (h : ReqHeader) : s.exchange meth uninit memory h args =
      if Fits defaultRpcSz rpcHeaderSz (sizes (argVals args s.marshals)) ∧
        Fits defaultRpcSz rpcHeaderSz (sizes [⟨r, (meth args).2⟩])
      then some (some args, (meth args).1, some (meth args).2) else none := by
  unfold Stub.exchange rpccCall
  rw [hpath]
  dsimp only
  by_cases hrequest : Fits defaultRpcSz rpcHeaderSz (sizes (argVals args s.marshals))
  · obtain ⟨b, hb, hmsg⟩ := marshalled_of_fits (memory 0) (.req h) hrequest
    rw [hb, Option.bind_some, rpcsDispatch_eq hfields hall hret hmsg]
    by_cases hresult : Fits defaultRpcSz rpcHeaderSz (sizes [⟨r, (meth args).2⟩])
    · obtain ⟨b', hb', hmsg'⟩ :=
        marshalled_of_fits (memory 1) (.reply ⟨h.xid, (meth args).1⟩) hresult
      rw [if_pos ⟨hrequest, hresult⟩, hb', Option.map_some, Option.bind_some]
      dsimp only
      rw [rpccReply_eq hret hmsg', Option.map_some]
    · rw [if_neg fun hfit => hresult hfit.2, marshalled_of_not_fits _ _ hresult]
      rfl
  · rw [if_neg fun hfit => hrequest hfit.1, marshalled_of_not_fits _ _ hrequest]
    rfl

/-- A call of the replicated state machine by a complete stub comes to its end exactly if the
messages fit. -/
theorem exchange_rsm (hpath : s.path = .rsm) (hfields : s.extracts = s.marshals)
    (hall : ∀ i, i ∈ s.marshals) (hret : 0 ≤ (meth args).1) (memory : ℕ → ℕ → UInt8)
    (h : ReqHeader) : s.exchange meth uninit memory h args =
      if Fits defaultRpcSz rpcHeaderSz (sizes (argVals args s.marshals)) ∧
        Fits defaultRpcSz rpcHeaderSz (sizes [⟨r, (meth args).2⟩]) ∧
        Fits defaultRpcSz rpcHeaderSz (sizes [⟨.key .int, (meth args).1⟩,
          ⟨.key .string, (⟨data (meth args).2⟩ : Str)⟩])
      then some (some args, (meth args).1, some (meth args).2) else none := by
  unfold Stub.exchange rsmClientCall
  rw [hpath]
  dsimp only
  by_cases hrequest : Fits defaultRpcSz rpcHeaderSz (sizes (argVals args s.marshals))
  swap
  · rw [if_neg fun hfit => hrequest hfit.1,
      Marshall.write_of_not_fits (Marshall.sized_construct _) hrequest]
    rfl
  obtain ⟨m, hm, hstr, hsmall⟩ := str_of_fits (memory 0) hrequest
  rw [hm, Option.map_some, Option.bind_some, hstr]
  by_cases hresult : Fits defaultRpcSz rpcHeaderSz (sizes [⟨r, (meth args).2⟩])
  swap
  · -- The handler invokes the method, but the result does not fit into its buffer.
    obtain ⟨b, hat, hdrop, -⟩ := At.ofContent (memory 1) hsmall
    have hnone : (Marshall.construct (memory 2)).write (put (meth args).2) = none := by
      unfold sizes at hresult
      rw [putAll_singleton] at hresult
      exact Marshall.write_of_not_fits (Marshall.sized_construct _) hresult
    unfold rsmExecute
    rw [if_neg fun hfit => hresult hfit.2.1, fn_of_complete hfields hall hat hdrop, hnone]
    rfl
  rw [rsmExecute_eq hfields hall hrequest hresult]
  by_cases hnested : Fits defaultRpcSz rpcHeaderSz (sizes [⟨.key .int, (meth args).1⟩,
      ⟨.key .string, (⟨data (meth args).2⟩ : Str)⟩])
  · obtain ⟨-, -, -, hx⟩ := str_of_fits (memory 0) hresult
    obtain ⟨m', hm', hstr', hrep⟩ := str_of_fits (memory 3) hnested
    have hbytes : bytesOf (putAll [⟨.key .int, (meth args).1⟩,
        ⟨.key .string, (⟨data (meth args).2⟩ : Str)⟩]) =
          data (meth args).1 ++ data (⟨data (meth args).2⟩ : Str) := by
      show bytesOf (put (meth args).1 ++ (put (⟨data (meth args).2⟩ : Str) ++ [])) = _
      rw [List.append_nil, bytesOf_append]
      rfl
    rw [putAll_singleton] at hx
    rw [hbytes] at hstr' hrep
    rw [if_pos ⟨hrequest, hresult, hnested⟩, hm', Option.map_some, Option.bind_some]
    dsimp only
    rw [hstr', rsmClientReply_eq hret _ hx hrep, Option.map_some]
  · rw [if_neg fun hfit => hnested hfit.2.2,
      Marshall.write_of_not_fits (Marshall.sized_construct _) hnested]
    rfl

/-- Complete stubs agree exactly if the messages fit. -/
theorem agrees_iff_fit (hfields : s.extracts = s.marshals) (hall : ∀ i, i ∈ s.marshals)
    (hret : 0 ≤ (meth args).1) : s.Agrees meth args ↔ s.MessagesFit meth args := by
  unfold Stub.Agrees
  cases hpath : s.path with
  | rpc =>
    simp only [exchange_rpc hpath hfields hall hret]
    constructor
    · intro hagrees
      have hsome := hagrees (fun _ _ => 0) ⟨0, 0, 0, 0, 0⟩ args
      have hfit := (Option.ite_none_right_eq_some.mp hsome).1
      exact ⟨hfit.1, hfit.2, fun hrsm => absurd (hpath.symm.trans hrsm) (by decide)⟩
    · intro hfit _ _ _
      exact if_pos ⟨hfit.request, hfit.result⟩
  | rsm =>
    simp only [exchange_rsm hpath hfields hall hret]
    constructor
    · intro hagrees
      have hsome := hagrees (fun _ _ => 0) ⟨0, 0, 0, 0, 0⟩ args
      have hfit := (Option.ite_none_right_eq_some.mp hsome).1
      exact ⟨hfit.1, hfit.2.1, fun _ => hfit.2.2⟩
    · intro hfit _ _ _
      exact if_pos ⟨hfit.request, hfit.result, hfit.nested hpath⟩

/-- A stub of the replicated state machine that leaves the last argument never answers. -/
theorem exchange_of_left {i : Fin s.n} (hpath : s.path = .rsm)
    (hleft : s.marshals = s.extracts ++ [i]) (memory : ℕ → ℕ → UInt8) (h : ReqHeader) :
    s.exchange meth uninit memory h args = none := by
  unfold Stub.exchange rsmClientCall
  rw [hpath]
  dsimp only
  by_cases hrequest : Fits defaultRpcSz rpcHeaderSz (sizes (argVals args s.marshals))
  · obtain ⟨m, hm, hstr, hsmall⟩ := str_of_fits (memory 0) hrequest
    obtain ⟨b, hat, hdrop, -⟩ := At.ofContent (memory 1) hsmall
    unfold rsmExecute
    rw [hm, Option.map_some, Option.bind_some, hstr, fn_of_left hpath hleft hat hdrop]
    rfl
  · rw [Marshall.write_of_not_fits (Marshall.sized_construct _) hrequest]
    rfl

/-- So it does not agree. -/
theorem not_agrees_of_left {i : Fin s.n} (hpath : s.path = .rsm)
    (hleft : s.marshals = s.extracts ++ [i]) : ¬ s.Agrees meth args := by
  intro hagrees
  have hsome := hagrees (fun _ _ => 0) ⟨0, 0, 0, 0, 0⟩ args
  rw [exchange_of_left hpath hleft] at hsome
  cases hsome

/-- The stubs agree on a call with a result that is not negative exactly if it is not one of the
replicated state machine with five arguments, and its messages fit. -/
theorem agrees_iff (hs : s ∈ offered) (hret : 0 ≤ (meth args).1) :
    s.Agrees meth args ↔ ¬ (s.path = .rsm ∧ s.n = 5) ∧ s.MessagesFit meth args := by
  by_cases hfive : s = rsm5
  · subst hfive
    exact iff_of_false (not_agrees_of_left (i := (4 : Fin 5)) rfl rfl) fun hcond =>
      hcond.1 ⟨rfl, rfl⟩
  · have hnot : ∀ s ∈ offered, s ≠ rsm5 → ¬ (s.path = .rsm ∧ s.n = 5) := by decide
    obtain ⟨hfields, hall⟩ := complete_of_offered s hs hfive
    rw [agrees_iff_fit hfields hall hret]
    exact ⟨fun hfit => ⟨hnot s hs hfive, hfit⟩, And.right⟩

end Exchange

/-- A call of the replicated state machine with four numbers, whose method returns the last one. -/
theorem four_arguments_agree : rsm4.Agrees (a := fun _ => .key .int) (r := .key .int)
    (fun args => ((0 : Int32), args (3 : Fin 4))) fun i => Int32.ofNat i.val :=
  (agrees_iff (by decide) (by decide)).mpr
    ⟨by decide, ⟨fits_of_room (by decide), fits_of_room (by decide),
      fun _ => fits_of_room (by decide)⟩⟩

/-- A call of the replicated state machine with five numbers does not return, whatever was in the
memory. -/
theorem five_arguments_abort : rsm5 ∈ offered ∧
    ¬ rsm5.Agrees (a := fun _ => .key .int) (r := .key .int)
      (fun args => ((0 : Int32), args (4 : Fin 5))) fun i => Int32.ofNat i.val :=
  ⟨by decide, not_agrees_of_left (s := rsm5) (i := (4 : Fin 5)) rfl rfl⟩

end SimpleDfs.Rpc
