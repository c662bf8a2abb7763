import SimpleDfs.Rpc.EndToEnd

/-!
# Calls that are handled once

The clients of `Rpc.EndToEnd` keep the promise on which the at-most-once logic of `Rpc.AtMostOnce`
rests: the numbers of their calls increase, and all calls below the `xid_rep` of a request are over
(`promised`). The server of the network is therefore a run of the at-most-once system
(`server_step`), until it is restarted. A restart loses the windows; but a call other than `bind` is
for one instance of the server, and no other one handles it. So a call that returns a value that is
not negative has been handled by exactly one handler ever, as long as the windows can tell the
requests that come and a reply is sent before its buffer is freed (`handled_exactly_once`).
-/

namespace SimpleDfs.Rpc

/-! ## The client -/

namespace Rpcc

variable {s : Rpcc}

theorem gotPdu_packed (xid : ℕ) (ret : ℤ) : (s.gotPdu xid ret).packed = s.packed := by
  obtain ⟨calls, hgot⟩ := s.exists_gotPdu_eq xid ret
  rw [hgot]
  rfl

theorem gotPdu_replied (xid : ℕ) (ret : ℤ) : (s.gotPdu xid ret).replied = xid :: s.replied := by
  obtain ⟨calls, hgot⟩ := s.exists_gotPdu_eq xid ret
  rw [hgot]

theorem gotPdu_reported (xid : ℕ) (ret : ℤ) :
    (s.gotPdu xid ret).reported = s.reported ++ [xid] := by
  obtain ⟨calls, hgot⟩ := s.exists_gotPdu_eq xid ret
  rw [hgot]
  rfl

end Rpcc

/-- The `xid_rep` of the next request: all xids up to it were reported. -/
theorem RpccInv.front {s : Rpcc} (h : RpccInv s) :
    (s.xid_rep_window_.headD 0 = 0 ∨ s.xid_rep_window_.headD 0 ∈ s.reported) ∧
      ∀ y, 1 ≤ y → y ≤ s.xid_rep_window_.headD 0 → y ∈ s.reported := by
  obtain ⟨front, hcovers⟩ := covers_xidRepWindow h.bound
  have hfront : s.xid_rep_window_.headD 0 = front := by
    rw [h.window, List.headD_eq_head?_getD, hcovers.head, Option.getD_some]
  rw [hfront]
  refine ⟨hcovers.sound front ?_, hcovers.acknowledged⟩
  rw [List.append_nil]
  exact List.mem_of_head? hcovers.head

/-! ## The server -/

/-- A request starts a handler exactly when it is answered `NEW`. -/
theorem dispatch_running {s : State} {clt : ℕ} {req : Request} (h : clt ≠ 0) :
    (s.dispatch clt req).running =
      if (checkduplicateAndUpdate (s.window clt) req.xid req.xid_rep).1 = .NEW then
        (clt, req.xid) :: s.running else s.running := by
  unfold State.dispatch
  rw [if_neg h]
  dsimp only
  split_ifs <;> rfl

/-- A reply is recorded by a running handler. -/
theorem next_reply {s : State} {clt xid : ℕ} {b : Bytes} (h : (clt, xid) ∈ s.running) :
    s.next (.reply clt xid b b.length) = some (s.recordReply clt xid b) := by
  simp only [State.next, if_pos h]
  split_ifs with hzero
  · unfold State.recordReply
    rw [if_pos hzero]
  · unfold State.recordReply
    rw [if_neg hzero]

/-- A server that is restarted has handled nothing. -/
theorem Inv.restarted {s : State} (h : Inv s) : Inv s.restarted where
  rep_le := h.rep_le
  fresh := nofun
  kept := nofun
  once := fun _ _ _ => Nat.zero_le 1

namespace RpcNet

variable {memory : ℕ → UInt8} {procs : Int32 → Bool} {s s' : RpcNet} {e : NetEvent} {clt : UInt32}
  {j : Handling}

/-! ## The promise of the clients -/

/-- What one client knows about its calls, and the requests that are recorded of it. -/
structure Disciplined (calls : List SentCall) (issued : List Request) (finished : List ℕ)
    (clt : UInt32) (c : RpcClient) : Prop where
  /-- The window of finished calls. -/
  rpcc : RpccInv c.rpcc
  /-- The requests are those that were packed. -/
  issued : issued = c.rpcc.packed
  /-- The calls that were reported are over. -/
  finished : ∀ x ∈ c.rpcc.reported, x ∈ finished
  /-- The replies are to calls. -/
  replied : ∀ x ∈ c.rpcc.replied, x < c.rpcc.xid_
  /-- The numbers of the requests have been given out. -/
  packed : ∀ r ∈ c.rpcc.packed, 0 < r.xid ∧ r.xid < c.rpcc.xid_
  /-- The calls are among the requests. -/
  calls : ∀ k ∈ calls, k.header.clt_nonce = clt → k.header.request ∈ c.rpcc.packed

/-- All clients. -/
def AllDisciplined (s : RpcNet) : Prop := ∀ clt : UInt32,
  Disciplined s.calls (s.server.issued clt.toNat) (s.server.finished clt.toNat) clt (s.client clt)

namespace Disciplined

variable {calls : List SentCall} {issued : List Request} {finished : List ℕ} {clt : UInt32}
  {c : RpcClient}

/-- The `xid_rep` of the next request is below its xid. -/
theorem front_lt (h : Disciplined calls issued finished clt c) :
    c.rpcc.xid_rep_window_.headD 0 < c.rpcc.xid_ := by
  obtain hzero | hmem := h.rpcc.front.1
  · rw [hzero]
    exact h.rpcc.pos
  · obtain hreplied | ⟨hlt, -⟩ := h.rpcc.finished _ hmem
    · exact h.replied _ hreplied
    · exact hlt

/-- The promise of the next request. -/
theorem promised (h : Disciplined calls issued finished clt c) :
    (∀ r ∈ issued, r.xid < c.rpcc.xid_) ∧ c.rpcc.xid_rep_window_.headD 0 ≤ c.rpcc.xid_ ∧
      ∀ r ∈ issued, r.xid < c.rpcc.xid_rep_window_.headD 0 → r.xid ∈ finished := by
  rw [h.issued]
  refine ⟨fun r hr => (h.packed r hr).2, h.front_lt.le, fun r hr hlt => ?_⟩
  exact h.finished _ (h.rpcc.front.2 _ (h.packed r hr).1 hlt.le)

/-- A call. -/
theorem called (h : Disciplined calls issued finished clt c) {proc : Int32} {k : SentCall}
    (hxid : c.rpcc.xid_ < 2 ^ 32 - 1) (hrefuses : ¬ c.rpcc.Refuses (xidOf proc))
    (hk : k.header.request = ⟨c.rpcc.xid_, c.rpcc.xid_rep_window_.headD 0⟩) :
    Disciplined (k :: calls) (⟨c.rpcc.xid_, c.rpcc.xid_rep_window_.headD 0⟩ :: issued) finished clt
      { c with
        rpcc := c.rpcc.call1 (xidOf proc)
        proc := Function.update c.proc c.rpcc.xid_ proc
        un := Function.update c.un c.rpcc.xid_ none } := by
  have hnext : (c.rpcc.xid_ + 1) % 2 ^ 32 = c.rpcc.xid_ + 1 := Nat.mod_eq_of_lt (by omega)
  have hinv : RpccInv (c.rpcc.call1 (xidOf proc)) := h.rpcc.call1 hxid
  rw [Rpcc.call1_of_not_refuses hrefuses, hnext] at hinv ⊢
  refine ⟨hinv, ?_, h.finished, fun x hx => Nat.lt_succ_of_lt (h.replied x hx), ?_, ?_⟩
  · dsimp only
    rw [h.issued]
  · refine List.forall_mem_cons.mpr ⟨⟨h.rpcc.pos, Nat.lt_succ_self _⟩, fun r hr => ?_⟩
    exact ⟨(h.packed r hr).1, Nat.lt_succ_of_lt (h.packed r hr).2⟩
  · refine List.forall_mem_cons.mpr ⟨fun _ => hk ▸ List.mem_cons_self, fun k hk hclt => ?_⟩
    exact List.mem_cons_of_mem _ (h.calls k hk hclt)

/-- A call of another client. -/
theorem other (h : Disciplined calls issued finished clt c) {k : SentCall}
    (hk : k.header.clt_nonce ≠ clt) : Disciplined (k :: calls) issued finished clt c :=
  { h with calls := List.forall_mem_cons.mpr ⟨fun hclt => absurd hclt hk, h.calls⟩ }

/-- A reply comes. -/
theorem gotPdu (h : Disciplined calls issued finished clt c) {xid : ℕ} {ret : ℤ}
    {un : ℕ → Option Unmarshall} (hxid : xid < c.rpcc.xid_) (hsmall : c.rpcc.xid_ < 2 ^ 32) :
    Disciplined calls issued (xid :: finished) clt
      { c with rpcc := c.rpcc.gotPdu xid ret, un := un } := by
  refine ⟨h.rpcc.gotPdu (by omega), ?_, fun x hx => ?_, fun x hx => ?_, fun r hr => ?_,
    fun k hk hclt => ?_⟩
  · exact h.issued.trans (Rpcc.gotPdu_packed _ _).symm
  · dsimp only at hx
    rw [Rpcc.gotPdu_reported] at hx
    obtain hx | hx := List.mem_append.mp hx
    · exact List.mem_cons_of_mem _ (h.finished x hx)
    · exact List.mem_singleton.mp hx ▸ List.mem_cons_self
  · dsimp only at hx ⊢
    rw [Rpcc.gotPdu_xid_]
    rw [Rpcc.gotPdu_replied] at hx
    obtain rfl | hx := List.mem_cons.mp hx
    · exact hxid
    · exact h.replied x hx
  · dsimp only at hr ⊢
    rw [Rpcc.gotPdu_packed] at hr
    rw [Rpcc.gotPdu_xid_]
    exact h.packed r hr
  · dsimp only
    rw [Rpcc.gotPdu_packed]
    exact h.calls k hk hclt

/-- A call returns. -/
theorem returns (h : Disciplined calls issued finished clt c) {xid : ℕ} {rpcc : Rpcc}
    {binds : List UInt32} (hret : c.rpcc.returns xid = some rpcc) :
    Disciplined calls issued (xid :: finished) clt { c with rpcc := rpcc, binds := binds } := by
  have hinv : RpccInv rpcc := h.rpcc.returns hret
  unfold Rpcc.returns at hret
  split at hret
  · cases hret
    refine { h with rpcc := hinv, finished := fun x hx => ?_ }
    obtain hx | hx := List.mem_append.mp hx
    · exact List.mem_cons_of_mem _ (h.finished x hx)
    · exact List.mem_singleton.mp hx ▸ List.mem_cons_self
  · cases hret

end Disciplined

/-- The xid of a reply is that of a call. -/
theorem Authentic.reply_xid (hi : s.Authentic) {b : Bytes} (hb : (clt, b) ∈ s.replies) :
    ∃ h u, (Unmarshall.ofPdu b).unpackReplyHeader = (h, u) ∧
      xidOf h.xid < (s.client clt).rpcc.xid_ := by
  obtain ⟨a, ha, hclt, hmsg⟩ | ⟨k, hk, hclt, ret, hret, hmsg⟩ := hi.replies.sent _ hb
  · obtain ⟨u, hu, -⟩ := hmsg.at_zero.unpackReplyHeader hmsg.header_le hmsg.header
    obtain ⟨-, k, hk, hhead, -⟩ := hi.server.started _ (hi.server.handled a ha).1
    dsimp only at hhead
    rw [hhead] at hclt
    exact ⟨_, u, hu, hhead ▸ (hi.clients.client clt).numbered k hk hclt⟩
  · obtain ⟨u, hu, -⟩ := hmsg.at_zero.unpackReplyHeader hmsg.header_le hmsg.header
    exact ⟨_, u, hu, (hi.clients.client clt).numbered k hk hclt⟩

/-- The client and the records of it change together. -/
theorem AllDisciplined.update (hd : s.AllDisciplined) {c : RpcClient} {finished : List ℕ}
    (hc : Disciplined s.calls (s.server.issued clt.toNat) finished clt c) :
    ∀ clt' : UInt32, Disciplined s.calls (s.server.issued clt'.toNat)
      (Function.update s.server.finished clt.toNat finished clt'.toNat) clt'
      (Function.update s.client clt c clt') := by
  intro clt'
  by_cases hclt : clt' = clt
  · subst hclt
    rwa [Function.update_self, Function.update_self]
  · rw [Function.update_of_ne hclt, Function.update_of_ne fun h => hclt (UInt32.toNat_inj.mp h)]
    exact hd clt'

theorem AllDisciplined.called (hd : s.AllDisciplined) {proc : Int32} {args : List Val} {b : Bytes}
    (hxid : (s.client clt).rpcc.xid_ < 2 ^ 32 - 1)
    (hrefuses : ¬ (s.client clt).rpcc.Refuses (xidOf proc)) :
    (s.called clt proc args b).AllDisciplined := by
  have hc := hd clt
  have hreq : (s.callHeader clt proc).request =
      ⟨(s.client clt).rpcc.xid_, (s.client clt).rpcc.xid_rep_window_.headD 0⟩ := by
    have hlt := hc.front_lt
    unfold ReqHeader.request callHeader
    dsimp only
    rw [xidOf_packXid (by omega), xidOf_packXid (by omega)]
  intro clt'
  show Disciplined _ (Function.update s.server.issued clt.toNat _ clt'.toNat) _ clt'
    (Function.update s.client clt _ clt')
  by_cases hclt : clt' = clt
  · subst hclt
    rw [Function.update_self, Function.update_self]
    exact hc.called hxid hrefuses hreq
  · rw [Function.update_of_ne hclt, Function.update_of_ne fun h => hclt (UInt32.toNat_inj.mp h)]
    exact (hd clt').other (Ne.symm hclt)

/-- What `rpcs::dispatch` does with a request of the server's own: it goes through the window, and
starts a handler exactly when the request is new. -/
theorem classify_spec (h : s.classify memory j = some s') :
    s'.client = s.client ∧ s'.calls = s.calls ∧ s'.nonce_ = s.nonce_ ∧
      s'.server = s.server.dispatch j.key.1 j.header.request ∧
      ((j.key.1 = 0 ∨ (checkduplicateAndUpdate (s.server.window j.key.1) j.header.request.xid
          j.header.request.xid_rep).1 = .NEW) ∧
        s'.serving = j :: s.serving ∧ s'.started = (s.nonce_, j) :: s.started ∨
      (j.key.1 ≠ 0 ∧ (checkduplicateAndUpdate (s.server.window j.key.1) j.header.request.xid
          j.header.request.xid_rep).1 ≠ .NEW) ∧
        s'.serving = s.serving ∧ s'.started = s.started) := by
  unfold RpcNet.classify at h
  dsimp only [Handling.key] at h ⊢
  split at h
  · rename_i hzero
    cases h
    exact ⟨rfl, rfl, rfl, rfl, .inl ⟨.inl hzero, rfl, rfl⟩⟩
  rename_i hne
  split at h
  · rename_i hcheck
    cases h
    exact ⟨rfl, rfl, rfl, rfl, .inl ⟨.inr (by rw [hcheck]), rfl, rfl⟩⟩
  · rename_i hcheck
    cases h
    exact ⟨rfl, rfl, rfl, rfl, .inr ⟨⟨hne, by simp [hcheck]⟩, rfl, rfl⟩⟩
  · rename_i hcheck
    split at h <;> cases h
    all_goals exact ⟨rfl, rfl, rfl, rfl, .inr ⟨⟨hne, by simp [hcheck]⟩, rfl, rfl⟩⟩
  · rename_i hcheck
    obtain ⟨b, -, rfl⟩ := Option.map_eq_some_iff.mp h
    exact ⟨rfl, rfl, rfl, rfl, .inr ⟨⟨hne, by simp [hcheck]⟩, rfl, rfl⟩⟩

/-- A request finishes no call. -/
theorem dispatch_finished {s : State} {clt : ℕ} {req : Request} :
    (s.dispatch clt req).finished = s.finished := by
  unfold State.dispatch
  dsimp only
  split_ifs <;> rfl

/-- A step of the server. -/
theorem AllDisciplined.of_eq (hd : s.AllDisciplined) (hclient : s'.client = s.client)
    (hcalls : s'.calls = s.calls) (hissued : s'.server.issued = s.server.issued)
    (hfinished : s'.server.finished = s.server.finished) : s'.AllDisciplined := by
  intro clt
  rw [hclient, hcalls, hissued, hfinished]
  exact hd clt

/-- Every step. -/
theorem AllDisciplined.step (hd : s.AllDisciplined) (hi : s.Authentic) (hG : Regular s e)
    (h : s.step memory procs e = some s') : s'.AllDisciplined := by
  cases e with
  | call clt proc args =>
    obtain rfl | ⟨hrefuses, b, -, rfl⟩ := call_cases h
    · exact hd
    · exact hd.called hG hrefuses
  | dispatch b =>
    obtain ⟨k, hk, rfl, hdispatch⟩ := step_dispatch h
    obtain hfail | ⟨j, -, -, -, hj⟩ := hi.dispatch_cases hk hdispatch
    · obtain ⟨b, -, rfl⟩ := Option.map_eq_some_iff.mp hfail
      exact hd
    · obtain ⟨hclient, hcalls, -, hserver, -⟩ := classify_spec hj
      exact hd.of_eq hclient hcalls (hserver ▸ dispatch_issued) (hserver ▸ dispatch_finished)
  | handled j ret result =>
    obtain ⟨-, ret', result', b, -, -, rfl⟩ := handle_cases h
    exact hd.of_eq rfl rfl rfl rfl
  | sent p b =>
    obtain ⟨-, hs'⟩ := Option.ite_none_right_eq_some.mp h
    cases hs'
    exact hd
  | restart nonce =>
    cases h
    exact hd
  | gotPdu clt b =>
    obtain ⟨hb, rfl⟩ := step_gotPdu h
    obtain ⟨hdr, u, hu, hxid⟩ := hi.reply_xid hb
    unfold RpcNet.gotPdu
    rw [hu]
    dsimp only
    split
    · exact hd.update ((hd clt).gotPdu hxid (hi.clients.client clt).small)
    · exact hd
  | returns clt xid =>
    obtain ⟨ca, rpcc, binds, -, hrpcc, rfl, -⟩ := returns_cases h
    exact hd.update ((hd clt).returns hrpcc)
  | bound clt nonce =>
    simp only [RpcNet.step, RpcNet.bound] at h
    split at h <;> cases h
    have hc := hd clt
    have hnew := hd.update (c := { s.client clt with
        rpcc := { (s.client clt).rpcc with bind_done_ := true }
        srv_nonce_ := nonce
        binds := (s.client clt).binds.erase nonce })
      { hc with rpcc := hc.rpcc.next (e := .bound) trivial rfl }
    rwa [Function.update_eq_self] at hnew
  | cancel clt =>
    cases h
    have hc := hd clt
    have hnew := hd.update (c := { s.client clt with rpcc := (s.client clt).rpcc.cancel })
      { hc with rpcc := hc.rpcc.next (e := .cancel) trivial rfl }
    rwa [Function.update_eq_self] at hnew

/-! ## The server is a run of the at-most-once system -/

/-- A step of the network is one of the server, or none, unless the server is restarted. The events
of the server are those that its windows can classify if the requests are. -/
theorem server_step (hi : s.Authentic) (hd : s.AllDisciplined)
    (hrun : s.server.running.Perm (s.serving.map Handling.key))
    (h : s.step memory procs e = some s') :
    s'.server = s.server ∨ (∃ n, e = .restart n ∧ s'.server = s.server.restarted) ∨
      ∃ e', s.server.next e' = some s'.server ∧ ∀ clt req, e' = .dispatch clt req →
        ∃ k ∈ s.calls, e = .dispatch k.pdu ∧ clt = k.header.clt_nonce.toNat ∧
          req = k.header.request ∧ (k.header.srv_nonce = 0 ∨ k.header.srv_nonce = s.nonce_) := by
  cases e with
  | call clt proc args =>
    obtain rfl | ⟨-, b, -, rfl⟩ := call_cases h
    · exact .inl rfl
    · -- the client keeps its promise
      have hp : s.server.Promised clt.toNat (s.client clt).rpcc.xid_
          ((s.client clt).rpcc.xid_rep_window_.headD 0) := (hd clt).promised
      refine .inr (.inr ⟨.call _ _ _, if_pos hp, nofun⟩)
  | dispatch b =>
    obtain ⟨k, hk, rfl, hdispatch⟩ := step_dispatch h
    obtain hfail | ⟨j, hj, -, hsrv, hclass⟩ := hi.dispatch_cases hk hdispatch
    · obtain ⟨b, -, rfl⟩ := Option.map_eq_some_iff.mp hfail
      exact .inl rfl
    · obtain ⟨-, -, -, hserver, -⟩ := classify_spec hclass
      refine .inr (.inr ⟨.dispatch j.key.1 j.header.request, ?_, fun clt req heq => ?_⟩)
      · have hmem : j.header.request ∈ s.server.issued j.key.1 := by
          have hc := hd k.header.clt_nonce
          unfold Handling.key
          rw [hj, hc.issued]
          exact hc.calls k hk rfl
        rw [hserver]
        exact if_pos hmem
      · cases heq
        refine ⟨k, hk, rfl, ?_, by rw [hj], hsrv⟩
        unfold Handling.key
        rw [hj]
  | handled j ret result =>
    obtain ⟨hj, ret', result', b, -, -, rfl⟩ := handle_cases h
    have hmem : (j.key.1, j.key.2) ∈ s.server.running :=
      hrun.mem_iff.mpr (List.mem_map_of_mem hj)
    exact .inr (.inr ⟨.reply _ _ b b.length, next_reply hmem, nofun⟩)
  | sent p b =>
    obtain ⟨-, hs'⟩ := Option.ite_none_right_eq_some.mp h
    cases hs'
    exact .inl rfl
  | restart n =>
    cases h
    exact .inr (.inl ⟨n, rfl, rfl⟩)
  | gotPdu clt b =>
    obtain ⟨-, rfl⟩ := step_gotPdu h
    unfold RpcNet.gotPdu
    dsimp only
    split
    · exact .inr (.inr ⟨.finish _ _, rfl, nofun⟩)
    · exact .inl rfl
  | returns clt xid =>
    obtain ⟨ca, rpcc, binds, -, -, rfl, -⟩ := returns_cases h
    exact .inr (.inr ⟨.finish _ _, rfl, nofun⟩)
  | bound clt nonce =>
    simp only [RpcNet.step, RpcNet.bound] at h
    split at h <;> cases h
    exact .inl rfl
  | cancel clt =>
    cases h
    exact .inl rfl

/-- A request that comes is one that the windows can classify, if it is for the server. -/
def Classified (s : RpcNet) (b : Bytes) : Prop :=
  let h := (Unmarshall.ofPdu b).unpackReqHeader.1
  h.srv_nonce = 0 ∨ h.srv_nonce = s.nonce_ →
    Classifies (s.server.window h.clt_nonce.toNat) (s.server.opener h.clt_nonce.toNat)
      h.request.xid

instance (s : RpcNet) (b : Bytes) : Decidable (s.Classified b) :=
  inferInstanceAs (Decidable (_ → _))

/-- The condition on a step: it is regular, and requests can be classified. -/
def Orderly (s : RpcNet) : NetEvent → Prop
  | .dispatch b => s.Classified b
  | e => Regular s e

instance (s : RpcNet) : ∀ e, Decidable (Orderly s e)
  | .dispatch b => inferInstanceAs (Decidable (s.Classified b))
  | .call clt proc args => inferInstanceAs (Decidable (Regular s (.call clt proc args)))
  | .sent p b => inferInstanceAs (Decidable (Regular s (.sent p b)))
  | .restart nonce => inferInstanceAs (Decidable (Regular s (.restart nonce)))
  | .handled .. | .gotPdu .. | .returns .. | .bound .. | .cancel _ => isTrue trivial

theorem Orderly.regular {s : RpcNet} (h : Orderly s e) : Regular s e := by
  cases e with
  | dispatch b => trivial
  | _ => exact h

/-- Each instance of the server handles a request once. -/
structure Once (s : RpcNet) : Prop where
  /-- The windows keep what was started. -/
  server : Inv s.server
  /-- The handlers that run. -/
  running : s.server.running.Perm (s.serving.map Handling.key)
  /-- The handlers that this instance of the server has started. -/
  started : s.server.started =
    (s.started.filter fun e => e.1 = s.nonce_).map fun e => e.2.key
  /-- No instance has started two handlers for a call. -/
  once : ∀ n key, key.1 ≠ 0 →
    s.started.countP (fun e => e.1 = n ∧ e.2.key = key) ≤ 1

/-- The handlers of this instance for a call are counted by the windows. -/
theorem countP_started {l : List (UInt32 × Handling)} (n : UInt32) (key : ℕ × ℕ) :
    ((l.filter fun e => e.1 = n).map fun e => e.2.key).count key =
      l.countP fun e => e.1 = n ∧ e.2.key = key := by
  rw [List.count, List.countP_map, List.countP_filter]
  refine List.countP_congr fun e _ => ?_
  simp [and_comm]

/-- The counts after a step in which this instance may have started a handler. -/
theorem Once.of_server {nonce : UInt32} {server : State} {started : List (UInt32 × Handling)}
    (hserver : Inv server)
    (hstarted : server.started =
      (started.filter fun e => e.1 = nonce).map fun e => e.2.key)
    (hothers : ∀ n key, n ≠ nonce → key.1 ≠ 0 →
      started.countP (fun e => e.1 = n ∧ e.2.key = key) ≤ 1) :
    ∀ n key, key.1 ≠ 0 → started.countP (fun e => e.1 = n ∧ e.2.key = key) ≤ 1 := by
  intro n key hkey
  by_cases hn : n = nonce
  · subst hn
    rw [← countP_started, ← hstarted]
    exact hserver.once key.1 hkey key.2
  · exact hothers n key hn hkey

/-- `Inv` along a step of the server. -/
theorem Once.server_inv (ho : s.Once) (hi : s.Authentic) (hd : s.AllDisciplined) (hG : Orderly s e)
    (h : s.step memory procs e = some s') : Inv s'.server := by
  obtain heq | ⟨n, -, heq⟩ | ⟨e', hnext, hdisp⟩ := server_step hi hd ho.running h
  · rw [heq]
    exact ho.server
  · rw [heq]
    exact ho.server.restarted
  · refine inv_next ho.server ?_ hnext
    cases e' with
    | dispatch clt req =>
      obtain ⟨k, hk, rfl, rfl, rfl, hsrv⟩ := hdisp clt req rfl
      have hclass : s.Classified k.pdu := hG
      have hmsg := hi.clients.sent k hk
      obtain ⟨u, hu, -⟩ := hmsg.at_zero.unpackReqHeader hmsg.header_le hmsg.header
      unfold Classified at hclass
      rw [hu] at hclass
      exact hclass hsrv
    | call | finish | reply => trivial

/-- A request that the window has classified. -/
theorem Once.classify (ho : s.Once) (hinv : Inv s'.server) (h : s.classify memory j = some s') :
    s'.Once := by
  obtain ⟨-, -, hnonce, hserver, hcases⟩ := classify_spec h
  obtain ⟨hnew, hserving, hstarted⟩ | ⟨⟨hne, hnew⟩, hserving, hstarted⟩ := hcases
  · -- the handler is one more of this instance
    have hrunning' : s'.server.running = j.key :: s.server.running ∧
        s'.server.started = j.key :: s.server.started := by
      rw [hserver]
      by_cases hzero : j.key.1 = 0
      · have hkey : j.key = (0, j.header.request.xid) := Prod.ext hzero rfl
        unfold State.dispatch
        rw [if_pos hzero]
        exact ⟨by rw [hkey], by rw [hkey]⟩
      · rw [dispatch_running hzero, dispatch_started hzero, if_pos (hnew.resolve_left hzero),
          if_pos (hnew.resolve_left hzero)]
        exact ⟨rfl, rfl⟩
    have hst : s'.server.started =
        (s'.started.filter fun e => e.1 = s'.nonce_).map fun e => e.2.key := by
      rw [hrunning'.2, hstarted, hnonce, ho.started]
      simp
    refine ⟨hinv, ?_, hst, of_server hinv hst fun n key hn hkey => ?_⟩
    · rw [hrunning'.1, hserving]
      exact ho.running.cons j.key
    · rw [hstarted, List.countP_cons_of_neg]
      · exact ho.once n key hkey
      · rw [hnonce] at hn
        simp [Ne.symm hn]
  · refine ⟨hinv, ?_, ?_, ?_⟩
    · rw [hserver, dispatch_running hne, if_neg hnew, hserving]
      exact ho.running
    · rw [hserver, dispatch_started hne, if_neg hnew, hstarted, hnonce]
      exact ho.started
    · rw [hstarted]
      exact ho.once

/-- A step that starts no handler and ends none. -/
theorem Once.of_eq (ho : s.Once) (hinv : Inv s'.server)
    (hrunning : s'.server.running = s.server.running)
    (hstarted : s'.server.started = s.server.started) (hserving : s'.serving = s.serving)
    (hhist : s'.started = s.started) (hnonce : s'.nonce_ = s.nonce_) : s'.Once := by
  refine ⟨hinv, ?_, ?_, ?_⟩
  · rw [hrunning, hserving]
    exact ho.running
  · rw [hstarted, hhist, hnonce, ho.started]
  · rw [hhist]
    exact ho.once

/-- A new instance of the server has started nothing. -/
theorem Once.restart (ho : s.Once) (hi : s.Authentic) {nonce : UInt32} (hn : nonce ∉ s.nonces) :
    (s.restart nonce).Once := by
  have hnone : ∀ e ∈ s.started, e.1 ≠ nonce := by
    rintro e he rfl
    exact hn (hi.server.started e he).1
  refine ⟨ho.server.restarted, .nil, ?_, ho.once⟩
  show [] = (s.started.filter fun e => e.1 = nonce).map fun e => e.2.key
  rw [List.filter_eq_nil_iff.mpr fun e he => by simpa using hnone e he]
  rfl

/-- The keys of the handlers that are left when one of them returns. -/
theorem erase_map_perm {l : List Handling} (hj : j ∈ l) :
    ((l.map Handling.key).erase j.key).Perm ((l.erase j).map Handling.key) := by
  have hkeys : (l.map Handling.key).Perm (j.key :: (l.map Handling.key).erase j.key) :=
    List.perm_cons_erase (List.mem_map_of_mem hj)
  have hjobs : (l.map Handling.key).Perm (j.key :: (l.erase j).map Handling.key) :=
    (List.perm_cons_erase hj).map Handling.key
  exact (hkeys.symm.trans hjobs).cons_inv

/-- Every step. -/
theorem Once.step (ho : s.Once) (hi : s.Authentic) (hd : s.AllDisciplined) (hG : Orderly s e)
    (h : s.step memory procs e = some s') : s'.Once := by
  have hinv := ho.server_inv hi hd hG h
  cases e with
  | call clt proc args =>
    obtain rfl | ⟨-, b, -, rfl⟩ := call_cases h
    · exact ho
    · exact ho.of_eq hinv rfl rfl rfl rfl rfl
  | dispatch b =>
    obtain ⟨k, hk, rfl, hdispatch⟩ := step_dispatch h
    obtain hfail | ⟨j, -, -, -, hclass⟩ := hi.dispatch_cases hk hdispatch
    · obtain ⟨b, -, rfl⟩ := Option.map_eq_some_iff.mp hfail
      exact ho.of_eq hinv rfl rfl rfl rfl rfl
    · exact ho.classify hinv hclass
  | handled j ret result =>
    obtain ⟨hj, ret', result', b, -, -, rfl⟩ := handle_cases h
    exact ⟨hinv, (ho.running.erase j.key).trans (erase_map_perm hj), ho.started, ho.once⟩
  | sent p b =>
    obtain ⟨-, hs'⟩ := Option.ite_none_right_eq_some.mp h
    cases hs'
    exact ho.of_eq hinv rfl rfl rfl rfl rfl
  | restart n =>
    cases h
    exact ho.restart hi hG.2
  | gotPdu clt b =>
    obtain ⟨-, rfl⟩ := step_gotPdu h
    unfold RpcNet.gotPdu at hinv ⊢
    dsimp only at hinv ⊢
    split
    · rename_i hok
      rw [if_pos hok] at hinv
      exact ho.of_eq hinv rfl rfl rfl rfl rfl
    · exact ho
  | returns clt xid =>
    obtain ⟨ca, rpcc, binds, -, -, rfl, -⟩ := returns_cases h
    exact ho.of_eq hinv rfl rfl rfl rfl rfl
  | bound clt nonce =>
    simp only [RpcNet.step, RpcNet.bound] at h
    split at h <;> cases h
    exact ho.of_eq hinv rfl rfl rfl rfl rfl
  | cancel clt =>
    cases h
    exact ho.of_eq hinv rfl rfl rfl rfl rfl

/-- It all holds in every state. -/
theorem once_of_reachable (h : (netSystem memory procs).Reachable Orderly s) :
    s.Authentic ∧ s.AllDisciplined ∧ s.Once := by
  refine h.invariant (I := fun s => s.Authentic ∧ s.AllDisciplined ∧ s.Once) ?_ ?_
  · rintro a ⟨nonce, hn, rfl⟩
    refine ⟨authentic_initial hn, fun clt => ?_, inv_initial, .nil, rfl,
      fun _ _ _ => Nat.zero_le 1⟩
    have hnew : RpccInv Rpcc.new := rpccInv_of_reachable (.of_init rfl)
    exact ⟨hnew, rfl, nofun, nofun, nofun, nofun⟩
  · rintro a e b ⟨hi, hd, ho⟩ hG hb
    exact ⟨hi.step hG.regular hb, hd.step hi hG.regular hb, ho.step hi hd hG hb⟩

/-- The handlers for a call other than `bind`, of any instance of the server, are those of the
instance that the call is for. -/
theorem Authentic.countP_key (hi : s.Authentic) {k : SentCall} (hk : k ∈ s.calls)
    (hproc : xidOf k.header.proc ≠ Rpcc.bind) :
    s.started.countP (fun e => e.2.key = (k.header.clt_nonce.toNat, xidOf k.header.xid)) =
      s.started.countP fun e => e.1 = k.header.srv_nonce ∧
        e.2.key = (k.header.clt_nonce.toNat, xidOf k.header.xid) := by
  refine List.countP_congr fun e he => ?_
  simp only [decide_eq_true_eq]
  refine ⟨fun hkey => ⟨?_, hkey⟩, And.right⟩
  obtain ⟨-, k', hk', hhead, -, hsrv⟩ := hi.server.started e he
  obtain ⟨hclt, hxid⟩ := Prod.mk.inj hkey
  -- the request is that of the call, which is for one instance
  obtain rfl : k' = k := by
    refine hi.clients.unique k' hk' k hk ?_ ?_
    · rw [← hhead]
      exact UInt32.toNat_inj.mp hclt
    · rw [← hhead, hxid]
  exact (hsrv.resolve_left fun hzero => hproc (hi.clients.unbound k' hk hzero)).symm

/-- A call of a client with a nonce that returns a value that is not negative was handled by one
handler, whatever messages were repeated, lost or late, and however often the server was restarted.
The handler was one of the server that the client was bound to, and what it returned is what the
caller gets. The windows of the server are assumed to tell the requests that come, and replies to be
sent before their buffers are freed. -/
theorem handled_exactly_once (h : (netSystem memory procs).Reachable Orderly s) {k : SentCall}
    (hk : k ∈ s.calls) (hnonce : k.header.clt_nonce ≠ 0)
    (hproc : xidOf k.header.proc ≠ Rpcc.bind) {r : ReturnedCall} (hr : r ∈ s.returned)
    (hclt : r.clt_nonce = k.header.clt_nonce) (hxid : r.xid = xidOf k.header.xid)
    (hret : 0 ≤ r.ret) :
    s.started.countP (fun e => e.2.key = (k.header.clt_nonce.toNat, xidOf k.header.xid)) = 1 ∧
      ∃ a ∈ s.handled, (k.header.srv_nonce, a.job) ∈ s.started ∧ a.job.header = k.header ∧
        a.ret.toInt = r.ret ∧ ∃ un u, r.un = some un ∧
          getAll (a.result.map Sigma.fst) un = (a.result, u) ∧ u.okdone = true := by
  obtain ⟨hi, -, ho⟩ := once_of_reachable h
  obtain ⟨a, ha, hhead, haret, hsrv, -, hread⟩ := hi.exists_handled hk hr hclt hxid hret
  have hstarted : (k.header.srv_nonce, a.job) ∈ s.started :=
    hsrv hproc ▸ (hi.server.handled a ha).1
  refine ⟨Nat.le_antisymm ?_ ?_, a, ha, hstarted, hhead, haret, hread⟩
  · rw [hi.countP_key hk hproc]
    refine ho.once _ _ fun hzero => hnonce ?_
    exact UInt32.toNat_inj.mp hzero
  · refine List.countP_pos_iff.mpr ⟨_, hstarted, decide_eq_true ?_⟩
    unfold Handling.key
    rw [hhead]

/-- The call of `bindAndCall`, whose request comes again while it is handled, after it was handled,
and after the server was restarted. -/
def repeatedCall : List NetEvent :=
  [.call 9 1 [⟨.key .int, (0 : Int32)⟩], .dispatch bindPdu, .handled (handlingOf bindPdu) 0 [],
    .sent ⟨9, 1, boundPdu, false⟩ boundPdu, .gotPdu 9 boundPdu, .returns 9 1, .bound 9 6,
    .call 9 2 [⟨.key .bool, true⟩], .dispatch callPdu, .dispatch callPdu,
    .handled (handlingOf callPdu) 3 [⟨.key .bool, false⟩], .dispatch callPdu,
    .sent ⟨9, 2, returnPdu, false⟩ returnPdu, .restart 8, .dispatch callPdu,
    .gotPdu 9 returnPdu, .returns 9 2]

/-- The repeated call is handled once. -/
theorem handled_exactly_once_repeatedCall : ∃ s, ∃ k ∈ s.calls, ∃ r ∈ s.returned,
    (netSystem (fun _ => 0) fun _ => true).Reachable Orderly s ∧ k.pdu = callPdu ∧ r.ret = 3 ∧
      s.nonce_ = 8 ∧ s.started.countP (fun e => e.2.key = (9, 2)) = 1 := by
  have hmap : ((netSystem (fun _ => 0) fun _ => true).execGuarded Orderly (.initial 6)
      repeatedCall).map (fun s => (s.calls.map (fun k => (k.pdu, k.header)),
        s.returned.map fun r => (r.clt_nonce, r.xid, r.ret))) =
      some ([(callPdu, ⟨2, 2, 9, 6, 1⟩), (bindPdu, ⟨1, 1, 9, 0, 0⟩)], [(9, 2, 3), (9, 1, 0)]) := by
    decide +kernel
  have hnonce : ((netSystem (fun _ => 0) fun _ => true).execGuarded Orderly (.initial 6)
      repeatedCall).map nonce_ = some 8 := by
    decide +kernel
  obtain ⟨s, hs, hval⟩ := Option.map_eq_some_iff.mp hmap
  obtain ⟨hcalls, hreturned⟩ := Prod.mk.inj hval
  rw [hs, Option.map_some, Option.some.injEq] at hnonce
  have hreach := System.Reachable.of_execGuarded hs ⟨6, by decide, rfl⟩
  obtain ⟨k, hk, hkval⟩ := List.mem_map.mp (hcalls ▸ List.mem_cons_self)
  obtain ⟨r, hr, hrval⟩ := List.mem_map.mp (hreturned ▸ List.mem_cons_self)
  obtain ⟨hpdu, hheader⟩ := Prod.mk.inj hkval
  obtain ⟨hclt, hxid, hret⟩ : r.clt_nonce = 9 ∧ r.xid = 2 ∧ r.ret = 3 := by
    simpa only [Prod.mk.injEq] using hrval
  have honce := (handled_exactly_once hreach hk (by rw [hheader]; decide)
    (by rw [hheader]; decide) hr (by rw [hclt, hheader]) (by rw [hxid, hheader]; decide)
    (by rw [hret]; decide)).1
  rw [hheader] at honce
  exact ⟨s, k, hk, r, hr, hreach, hpdu, hret, hnonce, honce⟩

end RpcNet

end SimpleDfs.Rpc
