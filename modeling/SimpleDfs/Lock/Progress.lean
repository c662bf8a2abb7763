import SimpleDfs.Lock.Custody
import SimpleDfs.Lock.Waiting

/-!
# No stuck waiter

When no message is lost and no call fails, a thread that waits in `acquire` waits for something that
is going to happen. The invariant `Sound` says that there is at most one sign that a client has a
lock, that it asked for it, or that the lock is wanted back; `Live` says that there is at least one.
Together they lead from a waiting thread to the client that has the lock, and from there to a thread
that holds it or can take it, to a message, to a request of the revoker or to the enforcer
(`no_stuck_waiter`).

There is one more place where the lock can be: on its way back, while the client calls `dorelease`
and before it calls the server (`flushing_waiter`). A waiting thread is not stuck then either, since
the call of the server follows.
-/

namespace SimpleDfs.Lock

/-! ## One client and one lock -/

/-- What is left of a lock at one client, from the flags of the client, the messages in flight,
whether the server has the client as the holder, whether the server has asked the holder, how often
the client is queued and about to be asked, and how many of its threads are in a call of
`acquire`. -/
structure Live (fl : Flags) (tr : Kind → ℕ) (holds revoked : Bool) (queued due asks : ℕ) :
    Prop where
  /-- The holder owns the lock, or the lock is on its way to it or back. -/
  held : holds.toNat ≤ fl.owned.toNat + tr .ok + tr .retry + fl.flushes + tr .release
  /-- A holder that was asked knows it or will be told, or is giving the lock back. -/
  asked : holds.toNat + revoked.toNat ≤
    1 + (fl.revoked.toNat + due + tr .revoke + fl.flushes + tr .release)
  /-- A client that is acquiring the lock asked for it, and is queued or gets an answer. -/
  requested : fl.acquiring.toNat ≤ tr .request + queued + tr .ok + tr .retry
  /-- Every call of `acquire` has a message in flight. -/
  calls : asks ≤ tr .request + tr .ok + tr .wait

namespace Live

variable {fl : Flags} {tr tr' : Kind → ℕ} {holds revoked : Bool} {queued due asks : ℕ}

/-- The client asks for the lock. -/
theorem request (h : Live fl tr holds revoked queued due asks)
    (htr : ∀ k, tr' k = tr k + if Kind.request = k then 1 else 0) :
    Live { fl with acquiring := true } tr' holds revoked queued due (asks + 1) := by
  obtain ⟨hheld, hasked, hrequested, hcalls⟩ := h
  constructor
  all_goals
    simp only [htr, Bool.toNat_true, reduceCtorEq, if_false, if_true]
    omega

/-- The answer `OK` arrives. -/
theorem ok (h : Live fl tr holds revoked queued due asks)
    (hsound : Sound fl tr holds revoked queued due)
    (htr : ∀ k, tr' k + (if Kind.ok = k then 1 else 0) = tr k) :
    Live { fl with acquiring := false, owned := true } tr' holds revoked queued due (asks - 1) := by
  obtain ⟨hheld, hasked, hrequested, hcalls⟩ := h
  simp only [Kind.forall, reduceCtorEq, if_false, if_true] at htr
  have hholds := holds.toNat_le
  have hgrants := hsound.grants
  constructor
  all_goals
    try simp only [Bool.toNat_true, Bool.toNat_false]
    omega

/-- A `retry` arrives. -/
theorem retry (h : Live fl tr holds revoked queued due asks)
    (hsound : Sound fl tr holds revoked queued due)
    (htr : ∀ k, tr' k + (if Kind.retry = k then 1 else 0) = tr k) :
    Live { fl with acquiring := false, owned := true } tr' holds revoked queued due asks := by
  obtain ⟨hheld, hasked, hrequested, hcalls⟩ := h
  simp only [Kind.forall, reduceCtorEq, if_false, if_true] at htr
  have hholds := holds.toNat_le
  have hgrants := hsound.grants
  constructor
  all_goals
    try simp only [Bool.toNat_true, Bool.toNat_false]
    omega

/-- The answer `RETRY` arrives. -/
theorem wait (h : Live fl tr holds revoked queued due asks)
    (htr : ∀ k, tr' k + (if Kind.wait = k then 1 else 0) = tr k) :
    Live fl tr' holds revoked queued due (asks - 1) := by
  obtain ⟨hheld, hasked, hrequested, hcalls⟩ := h
  simp only [Kind.forall, reduceCtorEq, if_false, if_true] at htr
  constructor <;> omega

/-- The last thread lets a lock go that the server wants back. -/
theorem giveBack (h : Live fl tr holds revoked queued due asks) :
    Live ⟨false, false, false, fl.flushes + 1⟩ tr holds revoked queued due asks := by
  obtain ⟨hheld, hasked, hrequested, hcalls⟩ := h
  have hholds := holds.toNat_le
  have hrevoked := revoked.toNat_le
  constructor
  all_goals
    try simp only [Bool.toNat_false]
    omega

/-- A `revoke` arrives at a client that can give the lock back at once. -/
theorem giveBackRevoked (h : Live fl tr holds revoked queued due asks)
    (htr : ∀ k, tr' k + (if Kind.revoke = k then 1 else 0) = tr k) :
    Live ⟨false, false, false, fl.flushes + 1⟩ tr' holds revoked queued due asks := by
  simp only [Kind.forall, reduceCtorEq, if_false, if_true] at htr
  obtain ⟨hheld, hasked, hrequested, hcalls⟩ := h.giveBack
  have hholds := holds.toNat_le
  have hrevoked := revoked.toNat_le
  simp only [Bool.toNat_false] at hheld hasked hrequested
  constructor
  all_goals
    try simp only [Bool.toNat_false]
    omega

/-- A `revoke` arrives at a client that cannot give the lock back yet. -/
theorem remember (h : Live fl tr holds revoked queued due asks)
    (hsound : Sound fl tr holds revoked queued due)
    (htr : ∀ k, tr' k + (if Kind.revoke = k then 1 else 0) = tr k) :
    Live { fl with revoked := true } tr' holds revoked queued due asks := by
  simp only [Kind.forall, reduceCtorEq, if_false, if_true] at htr
  have hholds := holds.toNat_le
  have hwanted := hsound.wanted
  obtain ⟨hheld, hasked, hrequested, hcalls⟩ := h
  constructor
  all_goals
    try simp only [Bool.toNat_true]
    omega

/-- `dorelease` returns, and the lock is sent back. -/
theorem sendBack (h : Live fl tr holds revoked queued due asks)
    (htr : ∀ k, tr' k = tr k + if Kind.release = k then 1 else 0) :
    Live { fl with flushes := fl.flushes - 1 } tr' holds revoked queued due asks := by
  obtain ⟨hheld, hasked, hrequested, hcalls⟩ := h
  constructor
  all_goals
    simp only [htr, reduceCtorEq, if_false, if_true]
    omega

/-- A client that is not the holder has nothing to show for the lock. -/
theorem notHolder (h : Live fl tr holds revoked queued due asks) (revoked' : Bool)
    {queued' : ℕ} (due' : ℕ)
    (hqueued : tr .request + queued + tr .ok + tr .retry ≤
      tr' .request + queued' + tr' .ok + tr' .retry)
    (hcalls : tr .request + tr .ok + tr .wait ≤ tr' .request + tr' .ok + tr' .wait) :
    Live fl tr' false revoked' queued' due' asks where
  held := Nat.zero_le _
  asked := by
    have hrevoked := revoked'.toNat_le
    try simp only [Bool.toNat_false]
    omega
  requested := h.requested.trans hqueued
  calls := h.calls.trans hcalls

/-- The server grants a free lock, which nobody was asked for. -/
theorem grant (h : Live fl tr false false queued due asks)
    (htr : ∀ k, tr' k + (if Kind.request = k then 1 else 0) = tr k + if Kind.ok = k then 1 else 0) :
    Live fl tr' true false queued due asks := by
  simp only [Kind.forall, reduceCtorEq, if_false, if_true] at htr
  obtain ⟨hheld, hasked, hrequested, hcalls⟩ := h
  constructor
  all_goals
    try simp only [Bool.toNat_true, Bool.toNat_false]
    omega

/-- The server queues the client. -/
theorem enqueue (h : Live fl tr holds revoked queued due asks)
    (htr : ∀ k, tr' k + (if Kind.request = k then 1 else 0) =
      tr k + if Kind.wait = k then 1 else 0) :
    Live fl tr' holds revoked (queued + 1) due asks := by
  simp only [Kind.forall, reduceCtorEq, if_false, if_true] at htr
  obtain ⟨hheld, hasked, hrequested, hcalls⟩ := h
  constructor <;> omega

/-- The server passes the lock on to the first client of the queue. -/
theorem passOn (h : Live fl tr false false (queued + 1) due asks)
    (htr : ∀ k, tr' k = tr k + if Kind.retry = k then 1 else 0) :
    Live fl tr' true false queued due asks := by
  obtain ⟨hheld, hasked, hrequested, hcalls⟩ := h
  constructor
  all_goals
    simp only [htr, Bool.toNat_true, Bool.toNat_false, reduceCtorEq, if_false, if_true]
    omega

/-- The enforcer asks the holder. -/
theorem enforce (h : Live fl tr holds revoked queued due asks) {due' : ℕ} (hdue : due + 1 ≤ due') :
    Live fl tr holds true queued due' asks := by
  obtain ⟨hheld, hasked, hrequested, hcalls⟩ := h
  have hholds := holds.toNat_le
  constructor
  all_goals
    try simp only [Bool.toNat_true]
    omega

/-- The revoker sends a request. -/
theorem sendRevoke (h : Live fl tr holds revoked queued (due + 1) asks)
    (htr : ∀ k, tr' k = tr k + if Kind.revoke = k then 1 else 0) :
    Live fl tr' holds revoked queued due asks := by
  obtain ⟨hheld, hasked, hrequested, hcalls⟩ := h
  constructor
  all_goals
    simp only [htr, reduceCtorEq, if_false, if_true]
    omega

/-- What the server does keeps what is left of a lock. -/
theorem served {info : CachedLockInfo} {v v' : Share}
    (h : Live fl v.tr v.holds v.revoked v.queued v.due asks)
    (hfree : info.holder = LockServer.FREE → info.revoked = false) (hserved : Served info v v') :
    Live fl v'.tr v'.holds v'.revoked v'.queued v'.due asks := by
  have hvacate : ∀ {tr tr' : Kind → ℕ} {holds revoked : Bool} {queued due : ℕ},
      Live fl tr holds revoked queued due asks →
      (holds = false ∧ (∀ k, tr' k = tr k) ∨
        ∀ k, tr' k + (if Kind.release = k then 1 else 0) = tr k) →
      Live fl tr' false false queued due asks := by
    intro tr tr' holds revoked queued due h htr
    simp only [Kind.forall, reduceCtorEq, if_false, if_true] at htr
    exact h.notHolder false _ (by omega) (by omega)
  cases hserved with
  | same => exact h
  | grant hholder htr =>
    dsimp only at h ⊢
    rw [hfree hholder] at h ⊢
    exact h.grant htr
  | enqueue htr => exact h.enqueue htr
  | vacate htr => exact hvacate h htr
  | passOn htr hretry => exact (hvacate h htr).passOn hretry
  | @enforce tr holds queued due =>
    cases holds with
    | true => exact h.enforce le_rfl
    | false => exact h.notHolder true _ le_rfl le_rfl
  | sendRevoke htr => exact h.sendRevoke htr

end Live

/-! ## The joint invariant -/

/-- What is left of a lock at a client. -/
def LockServer.LiveAt (server : LockServer) (c : ℕ) (lid : LockId) (fl : Flags) (tr : Kind → ℕ)
    (asks : ℕ) : Prop :=
  Live fl tr (decide ((server.info lid).holder = clientId c)) (server.info lid).revoked
    ((server.info lid).queue.count (clientId c)) (server.revoke_queue.count ⟨clientId c, lid⟩) asks

/-- Nothing is lost at the clients, at the server and between them. -/
structure LiveInv (s : LockState) : Prop where
  /-- The threads of each client do not wait without a reason. -/
  wakeful : ∀ c, Wakeful (s.clients c)
  /-- What is left of each lock at each client. -/
  live : ∀ c lid, s.server.LiveAt c lid ((s.clients c).flags lid)
    (inFlight s.msgs (clientId c) lid) ((s.clients c).asks lid)
  /-- Nobody waits for a free lock, and nobody was asked for it. -/
  free : ∀ lid, (s.server.info lid).holder = LockServer.FREE →
    (s.server.info lid).revoked = false ∧ (s.server.info lid).queue = []
  /-- The holder of a lock is a client. -/
  holder : ∀ lid, (s.server.info lid).holder = LockServer.FREE ∨
    ∃ c, (s.server.info lid).holder = clientId c
  /-- Clients are queued. -/
  queue : ∀ lid id, id ∈ (s.server.info lid).queue → ∃ c, id = clientId c
  /-- Clients ask for locks. -/
  senders : ∀ lid id xid, Msg.acquire lid id xid ∈ s.msgs → ∃ c, id = clientId c

variable {s : LockState} {lid : LockId}

/-- A client that owns a lock is not acquiring it. -/
theorem LockInv.phases (h : LockInv s) (c : ℕ) (lid : LockId)
    (howned : ((s.clients c).info lid).owned = true) :
    ((s.clients c).info lid).acquiring = false := by
  have hphases := (h.sound c lid).phases
  by_contra htrue
  rw [show ((s.clients c).flags lid).owned = true from howned,
    show ((s.clients c).flags lid).acquiring = true from Bool.eq_true_of_not_eq_false htrue]
    at hphases
  simp at hphases

namespace LiveInv

variable {s s' : LockState} {c : ℕ} {cl : Client} {lid : LockId} {fl : Flags} {id : String}
  {asks : ℕ} {xid : ℕ} {m : Msg} {t : ℕ}

/-- A client changes what it knows of one lock, and the messages about it change. -/
theorem update (h : LiveInv s) {msgs : List Msg} (hcl : Wakeful cl)
    (hflags : cl.flags = Function.update (s.clients c).flags lid fl)
    (hasks : cl.asks = Function.update (s.clients c).asks lid asks)
    (hlive : s.server.LiveAt c lid fl (inFlight msgs (clientId c) lid) asks)
    (hframe : ∀ c' l k, clientId c ≠ clientId c' ∨ lid ≠ l →
      inFlight msgs (clientId c') l k = inFlight s.msgs (clientId c') l k)
    (hsenders : ∀ l id xid, Msg.acquire l id xid ∈ msgs →
      Msg.acquire l id xid ∈ s.msgs ∨ id = clientId c) :
    LiveInv { s.setClient c cl with msgs := msgs } where
  wakeful c' := by
    show Wakeful (Function.update s.clients c cl c')
    rw [Function.update_apply]
    split_ifs with hc
    · exact hcl
    · exact h.wakeful c'
  live c' l := by
    show s.server.LiveAt c' l ((Function.update s.clients c cl c').flags l)
      (inFlight msgs (clientId c') l) ((Function.update s.clients c cl c').asks l)
    by_cases hc : c' = c
    · subst hc
      rw [Function.update_self, hflags, hasks]
      by_cases hl : l = lid
      · subst hl
        rw [Function.update_self, Function.update_self]
        exact hlive
      · rw [Function.update_of_ne hl, Function.update_of_ne hl,
          funext fun k => hframe c' l k (Or.inr (Ne.symm hl))]
        exact h.live c' l
    · have hne : clientId c ≠ clientId c' := fun heq => hc (clientId_inj.mp heq).symm
      rw [Function.update_of_ne hc, funext fun k => hframe c' l k (Or.inl hne)]
      exact h.live c' l
  free := h.free
  holder := h.holder
  queue := h.queue
  senders l id xid hm := by
    rcases hsenders l id xid hm with hold | rfl
    · exact h.senders l id xid hold
    · exact ⟨c, rfl⟩

/-- A client changes what it knows of one lock, without a message. -/
theorem silent (h : LiveInv s) (hcl : Wakeful cl ∧ cl.asks = (s.clients c).asks)
    (hflags : cl.flags = Function.update (s.clients c).flags lid fl)
    (hlive : s.server.LiveAt c lid fl (inFlight s.msgs (clientId c) lid)
      ((s.clients c).asks lid)) : LiveInv (s.setClient c cl) :=
  h.update hcl.1 hflags (hcl.2.trans (Function.update_eq_self lid _).symm) hlive
    (fun _ _ _ _ => rfl) fun _ _ _ => Or.inl

/-- A client keeps what it knows. -/
theorem sameFlags (h : LiveInv s) (hcl : Wakeful cl ∧ cl.asks = (s.clients c).asks)
    (hflags : cl.flags = (s.clients c).flags) : LiveInv (s.setClient c cl) :=
  h.silent hcl (hflags.trans (Function.update_eq_self 0 _).symm) (h.live c 0)

/-- A client sends a message about the lock. -/
theorem sends (h : LiveInv s) (hid : m.id = clientId c) (hcl : Wakeful cl)
    (hflags : cl.flags = Function.update (s.clients c).flags m.lid fl)
    (hasks : cl.asks = Function.update (s.clients c).asks m.lid asks)
    (hlive : s.server.LiveAt c m.lid fl (inFlight (m :: s.msgs) m.id m.lid) asks) :
    LiveInv ((s.send m).setClient c cl) := by
  refine h.update hcl hflags hasks (by rw [← hid]; exact hlive) (fun c' l k hne => ?_)
    fun l id xid hmem => ?_
  · exact inFlight_cons_of_ne (by rw [hid]; exact hne) s.msgs k
  · rcases List.mem_cons.mp hmem with heq | hmem
    · refine Or.inr ?_
      rw [← hid, ← heq]
      rfl
    · exact Or.inl hmem

/-- A message about the lock arrives at a client. -/
theorem receives (h : LiveInv s) (hm : m ∈ s.msgs) (hid : m.id = clientId c) (hcl : Wakeful cl)
    (hflags : cl.flags = Function.update (s.clients c).flags m.lid fl)
    (hasks : cl.asks = Function.update (s.clients c).asks m.lid asks)
    (hlive : s.server.LiveAt c m.lid fl (inFlight (s.msgs.erase m) m.id m.lid) asks) :
    LiveInv ((s.take m).setClient c cl) := by
  refine h.update hcl hflags hasks (by rw [← hid]; exact hlive) (fun c' l k hne => ?_)
    fun l id xid hmem => ?_
  · exact inFlight_erase_of_ne (by rw [hid]; exact hne) hm k
  · exact Or.inl (List.mem_of_mem_erase hmem)

/-! ## Events at a client -/

/-- A step of a thread in `acquire`. -/
theorem run (h : LiveInv s) (hinv : LockInv s) (hstep : s.next (.run c t) = some s') :
    LiveInv s' := by
  obtain ⟨⟨cl, out⟩, hrun, rfl⟩ := Option.map_eq_some_iff.mp hstep
  obtain ⟨-, hspec⟩ := Client.run_spec (hinv.clients c) hrun
  obtain ⟨hcl, ⟨rfl, hasks⟩ | ⟨lid, rfl, hasks⟩⟩ :=
    Client.run_keeps (hinv.clients c) (h.wakeful c) (hinv.phases c) hrun
  · rcases hspec with ⟨-, hflags⟩ | ⟨lid, hout, -⟩
    · exact h.sameFlags ⟨hcl, hasks⟩ hflags
    · cases hout
  · rcases hspec with ⟨hout, -⟩ | ⟨lid', hout, -, -, hflags⟩
    · cases hout
    · cases hout
      exact h.sends (m := .acquire lid (clientId c) (s.clients c).xid) rfl hcl hflags hasks
        ((h.live c lid).request (inFlight_cons_self (.acquire lid (clientId c) _) s.msgs))

/-- The reply to a call arrives. -/
theorem reply (h : LiveInv s) (hinv : LockInv s) {status : Status}
    (hstep : s.next (.reply c t status) = some s') : LiveInv s' := by
  simp only [LockState.next] at hstep
  split at hstep
  next lid xid hpc =>
    split_ifs at hstep with hm
    obtain ⟨cl, hreturns, rfl⟩ := Option.map_eq_some_iff.mp hstep
    obtain ⟨-, lid', xid', hpc', hcase⟩ := Client.acquireReturns_spec (hinv.clients c) hreturns
    rw [hpc] at hpc'
    obtain ⟨rfl, rfl⟩ := Pc.awaitReply.inj hpc'
    obtain ⟨hcl, lid', xid', hpc', -, hasks, hphase⟩ :=
      Client.acquireReturns_keeps (hinv.clients c) (h.wakeful c) hreturns
    rw [hpc] at hpc'
    obtain ⟨rfl, rfl⟩ := Pc.awaitReply.inj hpc'
    have hlive := h.live c lid
    have hsound := hinv.sound c lid
    have htr := inFlight_erase_self hm
    rcases hcase with ⟨hflags, howned⟩ | ⟨howned, hflags⟩
    · refine h.receives (m := .reply lid (clientId c) xid status) hm rfl hcl
        (hflags.trans (Function.update_eq_self lid _).symm) hasks ?_
      cases status with
      | OK =>
        -- A client that owns the lock is not granted it once more.
        have hgrants := hsound.grants
        have hholds := (decide ((s.server.info lid).holder = clientId c)).toNat_le
        have hpos := inFlight_pos hm
        rw [show ((s.clients c).flags lid).owned = true from howned, Bool.toNat_true] at hgrants
        dsimp only [Msg.id, Msg.lid, Msg.kind] at hpos
        omega
      | RETRY => exact hlive.wait htr
    · cases status with
      | OK =>
        exact h.receives (m := .reply lid (clientId c) xid .OK) hm rfl hcl hflags hasks
          (hlive.ok hsound htr)
      | RETRY =>
        -- The client was acquiring the lock, and still is.
        have hsame : cl.flags =
            Function.update (s.clients c).flags lid ((s.clients c).flags lid) := by
          refine hflags.trans (congrArg _ (Flags.ext ?_ ?_ rfl rfl))
          · exact (hphase howned).symm
          · exact howned.symm
        exact h.receives (m := .reply lid (clientId c) xid .RETRY) hm rfl hcl hsame hasks
          (hlive.wait htr)
  next => cases hstep

/-- A thread releases a lock. -/
theorem release (h : LiveInv s) (hinv : LockInv s) (hstep : s.next (.release c t lid) = some s') :
    LiveInv s' := by
  obtain ⟨cl, hrelease, rfl⟩ := Option.map_eq_some_iff.mp hstep
  have hcl := Client.release_keeps (hinv.clients c) (h.wakeful c) hrelease
  obtain ⟨-, -, hflags | ⟨-, hflags⟩⟩ := Client.release_spec (hinv.clients c) hrelease
  · exact h.sameFlags hcl hflags
  · exact h.silent hcl hflags (h.live c lid).giveBack

/-- `dorelease` returned, and the lock is sent back. -/
theorem sendsBack (h : LiveInv s) (hcl : Wakeful cl ∧ cl.asks = (s.clients c).asks)
    (hm : m = .release lid (clientId c))
    (hflags : cl.flags = Function.update (s.clients c).flags lid
      { (s.clients c).flags lid with flushes := ((s.clients c).flags lid).flushes - 1 }) :
    LiveInv ((s.send m).setClient c cl) := by
  subst hm
  exact h.sends rfl hcl.1 hflags (hcl.2.trans (Function.update_eq_self lid _).symm)
    ((h.live c lid).sendBack (inFlight_cons_self (.release lid (clientId c)) s.msgs))

/-- A `revoke` arrives. -/
theorem revoke (h : LiveInv s) (hinv : LockInv s) (hstep : s.next (.revoke c lid) = some s') :
    LiveInv s' := by
  simp only [LockState.next] at hstep
  split_ifs at hstep with hm
  obtain ⟨cl, hrevoke, rfl⟩ := Option.map_eq_some_iff.mp hstep
  have hknown := (hinv.sound c lid).not_idle_of_revoke (inFlight_pos hm)
  obtain ⟨hcl, hasks⟩ := Client.revokeHandler_keeps (hinv.clients c) (h.wakeful c) hknown hrevoke
  have hsame := hasks.trans (Function.update_eq_self lid _).symm
  obtain ⟨-, hidle | ⟨-, hflags⟩ | hflags⟩ := Client.revokeHandler_spec (hinv.clients c) hrevoke
  · exact absurd hidle hknown
  · exact h.receives (m := .revoke lid (clientId c)) hm rfl hcl hflags hsame
      ((h.live c lid).giveBackRevoked (inFlight_erase_self hm))
  · exact h.receives (m := .revoke lid (clientId c)) hm rfl hcl hflags hsame
      ((h.live c lid).remember (hinv.sound c lid) (inFlight_erase_self hm))

/-- A `retry` arrives. -/
theorem retry (h : LiveInv s) (hinv : LockInv s) (hstep : s.next (.retry c lid) = some s') :
    LiveInv s' := by
  simp only [LockState.next] at hstep
  split_ifs at hstep with hm
  obtain ⟨cl, hretry, rfl⟩ := Option.map_eq_some_iff.mp hstep
  obtain ⟨hcl, hasks⟩ := Client.retryHandler_keeps (h.wakeful c) hretry
  obtain ⟨-, hflags⟩ := Client.retryHandler_spec (hinv.clients c) hretry
  exact h.receives (m := .retry lid (clientId c)) hm rfl hcl hflags
    (hasks.trans (Function.update_eq_self lid _).symm)
    ((h.live c lid).retry (hinv.sound c lid) (inFlight_erase_self hm))

/-! ## Events at the server -/

/-- An event at the server. The records stay as they are, or are again those of locks that are free,
held or queued for by clients. -/
theorem of_server (h : LiveInv s) (hclients : s'.clients = s.clients)
    (hserved : ∀ c l, Served (s.server.info l) (s.share c l) (s'.share c l))
    (hinfo : ∀ l, s'.server.info l = s.server.info l ∨
      ((s'.server.info l).holder = LockServer.FREE →
        (s'.server.info l).revoked = false ∧ (s'.server.info l).queue = []) ∧
      ((s'.server.info l).holder = LockServer.FREE ∨
        ∃ c, (s'.server.info l).holder = clientId c) ∧
      ∀ id ∈ (s'.server.info l).queue, ∃ c, id = clientId c)
    (hsenders : ∀ l id xid, Msg.acquire l id xid ∈ s'.msgs → Msg.acquire l id xid ∈ s.msgs) :
    LiveInv s' where
  wakeful := hclients ▸ h.wakeful
  live c l := by
    rw [hclients]
    exact Live.served (v := s.share c l) (h.live c l) (fun hfree => (h.free l hfree).1)
      (hserved c l)
  free l := by
    rcases hinfo l with hsame | hnew
    · rw [hsame]
      exact h.free l
    · exact hnew.1
  holder l := by
    rcases hinfo l with hsame | hnew
    · rw [hsame]
      exact h.holder l
    · exact hnew.2.1
  queue l := by
    rcases hinfo l with hsame | hnew
    · rw [hsame]
      exact h.queue l
    · exact hnew.2.2
  senders l id xid hm := h.senders l id xid (hsenders l id xid hm)

/-- An `acquire` arrives at the server. -/
theorem serverAcquire (h : LiveInv s) (hstep : s.next (.serverAcquire lid id xid) = some s') :
    LiveInv s' := by
  simp only [LockState.next] at hstep
  split_ifs at hstep with hm
  cases hstep
  obtain ⟨c₀, rfl⟩ := h.senders lid id xid hm
  refine h.of_server rfl (served_acquire hm) (fun l => ?_) fun l i x hmem => ?_
  · dsimp only
    rw [LockServer.info_acquire]
    split_ifs with hl hfree
    · exact Or.inr ⟨fun hfree' => absurd hfree' (clientId_ne_free c₀), Or.inr ⟨c₀, rfl⟩,
        h.queue lid⟩
    · refine Or.inr ⟨fun hfree' => absurd hfree' hfree, h.holder lid, fun i hi => ?_⟩
      rcases List.mem_append.mp hi with hold | hnew
      · exact h.queue lid i hold
      · exact ⟨c₀, List.mem_singleton.mp hnew⟩
    · exact Or.inl rfl
  · exact List.mem_of_mem_erase (List.mem_of_ne_of_mem Msg.noConfusion hmem)

/-- A `release` arrives at the server. -/
theorem serverRelease (h : LiveInv s) (hinv : LockInv s)
    (hstep : s.next (.serverRelease lid id) = some s') : LiveInv s' := by
  simp only [LockState.next] at hstep
  split_ifs at hstep with hm
  obtain ⟨⟨server, next⟩, hrelease, hs'⟩ := Option.map_eq_some_iff.mp hstep
  obtain ⟨c₀, rfl⟩ := hinv.senders lid id hm
  have hserved := served_release hm (hinv.holder_of_release hm) hrelease
  have hinfo := LockServer.info_release hrelease
  cases next with
  | none =>
    -- No client waits, and the lock is free.
    subst hs'
    have hnil : (s.server.info lid).queue = [] := List.head?_eq_none_iff.mp (hinfo 0).2.1.symm
    refine h.of_server rfl hserved (fun l => ?_) fun _ _ _ => List.mem_of_mem_erase
    dsimp only
    rw [(hinfo l).1]
    split_ifs
    · rw [hnil]
      exact Or.inr ⟨fun _ => ⟨rfl, rfl⟩, Or.inl rfl, fun _ hid => by cases hid⟩
    · exact Or.inl rfl
  | some next =>
    subst hs'
    obtain ⟨rest, hcons⟩ := List.head?_eq_some_iff.mp (hinfo 0).2.1.symm
    have hqueue := h.queue lid
    rw [hcons] at hqueue
    obtain ⟨c, rfl⟩ := hqueue next List.mem_cons_self
    refine h.of_server rfl hserved (fun l => ?_) fun _ _ _ hmem =>
      List.mem_of_mem_erase (List.mem_of_ne_of_mem Msg.noConfusion hmem)
    dsimp only
    rw [(hinfo l).1]
    split_ifs
    · rw [hcons]
      exact Or.inr ⟨fun hfree => absurd hfree (clientId_ne_free c), Or.inr ⟨c, rfl⟩,
        fun i hi => hqueue i (List.mem_cons_of_mem _ hi)⟩
    · exact Or.inl rfl

/-- A pass of the enforcer. -/
theorem enforcer (h : LiveInv s) : LiveInv { s with server := s.server.enforcer } := by
  refine h.of_server rfl (served_enforcer s) (fun l => ?_) fun _ _ _ => id
  dsimp only
  rw [LockServer.info_enforcer]
  split_ifs with hdue
  · -- Somebody waits for a lock that is due, so that it is not free.
    refine Or.inr ⟨fun hfree => ?_, h.holder l, h.queue l⟩
    unfold CachedLockInfo.due at hdue
    rw [(h.free l hfree).2] at hdue
    cases hdue
  · exact Or.inl rfl

/-- The revoker sends a request. -/
theorem revoker (h : LiveInv s) (hstep : s.next .revoker = some s') : LiveInv s' := by
  obtain ⟨⟨request, server⟩, hrevoker, rfl⟩ := Option.map_eq_some_iff.mp hstep
  refine h.of_server rfl (served_revoker hrevoker) (fun l => Or.inl ?_)
    fun _ _ _ => List.mem_of_ne_of_mem Msg.noConfusion
  unfold LockServer.revoker at hrevoker
  split at hrevoker
  next => cases hrevoker
  next =>
    cases hrevoker
    rfl

/-! ## Every state -/

/-- The invariant holds at the start. -/
protected theorem start : LiveInv .start where
  wakeful _ := .start
  live c lid := by
    have hflags : Client.start.flags lid = ⟨false, false, false, 0⟩ := by
      refine Flags.ext rfl rfl rfl ?_
      show countAt (Pc.Flushes lid) (fun _ => Pc.idle) + 0 = 0
      exact countAt_eq_zero fun _ => Pc.noConfusion
    have hasks : Client.start.asks lid = 0 := countAt_eq_zero fun _ => id
    have hinfo : LockState.start.server.info lid = ⟨LockServer.FREE, false, []⟩ :=
      Std.TreeMap.getD_emptyc
    show Live (Client.start.flags lid) (fun _ => 0)
      (decide ((LockState.start.server.info lid).holder = clientId c))
      (LockState.start.server.info lid).revoked
      ((LockState.start.server.info lid).queue.count (clientId c)) 0 (Client.start.asks lid)
    rw [hflags, hasks, hinfo, decide_eq_false (Ne.symm (clientId_ne_free c))]
    constructor <;> simp
  free lid _ := by
    have hinfo : LockState.start.server.info lid = ⟨LockServer.FREE, false, []⟩ :=
      Std.TreeMap.getD_emptyc
    rw [hinfo]
    exact ⟨rfl, rfl⟩
  holder lid := Or.inl (congrArg CachedLockInfo.holder Std.TreeMap.getD_emptyc)
  queue lid id hid := by
    have hinfo : LockState.start.server.info lid = ⟨LockServer.FREE, false, []⟩ :=
      Std.TreeMap.getD_emptyc
    rw [hinfo] at hid
    cases hid
  senders := nofun

end LiveInv

/-- No message is lost and no call fails. -/
def Lossless (_ : LockState) : LockEvent → Prop
  | .lose _ | .callFails _ _ => False
  | _ => True

instance (s : LockState) : DecidablePred (Lossless s)
  | .lose _ | .callFails _ _ => inferInstanceAs (Decidable False)
  | .acquire _ _ _ | .run _ _ | .reply _ _ _ | .wakes _ _ | .release _ _ _ | .released _ _
  | .releaseReturns _ _ | .revoke _ _ | .revokeReleased _ | .retry _ _ | .serverAcquire _ _ _
  | .serverRelease _ _ | .enforcer | .revoker => inferInstanceAs (Decidable True)

/-- Every event that loses nothing keeps the invariant. -/
theorem LiveInv.next {s s' : LockState} (h : LiveInv s) (hinv : LockInv s) {e : LockEvent}
    (hlossless : Lossless s e) (hstep : s.next e = some s') : LiveInv s' := by
  cases e with
  | acquire c t lid =>
    obtain ⟨cl, hacquire, rfl⟩ := Option.map_eq_some_iff.mp hstep
    exact h.sameFlags (Client.acquire_keeps (hinv.clients c) (h.wakeful c) hacquire)
      (Client.acquire_spec (hinv.clients c) hacquire).2
  | run c t => exact h.run hinv hstep
  | reply c t status => exact h.reply hinv hstep
  | callFails c t => exact hlossless.elim
  | wakes c t =>
    obtain ⟨cl, hwakes, rfl⟩ := Option.map_eq_some_iff.mp hstep
    exact h.sameFlags (Client.wakes_keeps (hinv.clients c) (h.wakeful c) hwakes)
      (Client.wakes_spec (hinv.clients c) hwakes).2
  | release c t lid => exact h.release hinv hstep
  | released c t =>
    obtain ⟨⟨cl, m⟩, hreleased, rfl⟩ := Option.map_eq_some_iff.mp hstep
    obtain ⟨-, lid, -, hm, -, hflags⟩ := Client.released_spec (hinv.clients c) hreleased
    exact h.sendsBack (Client.released_keeps (hinv.clients c) (h.wakeful c) hreleased) hm hflags
  | releaseReturns c t =>
    obtain ⟨cl, hreturns, rfl⟩ := Option.map_eq_some_iff.mp hstep
    exact h.sameFlags (Client.releaseReturns_keeps (hinv.clients c) (h.wakeful c) hreturns)
      (Client.releaseReturns_spec (hinv.clients c) hreturns).2
  | revoke c lid => exact h.revoke hinv hstep
  | revokeReleased c =>
    obtain ⟨⟨cl, m⟩, hreleased, rfl⟩ := Option.map_eq_some_iff.mp hstep
    obtain ⟨-, lid, -, hm, -, hflags⟩ := Client.revokeReleased_spec (hinv.clients c) hreleased
    exact h.sendsBack (Client.revokeReleased_keeps (h.wakeful c) hreleased) hm hflags
  | retry c lid => exact h.retry hinv hstep
  | serverAcquire lid id xid => exact h.serverAcquire hstep
  | serverRelease lid id => exact h.serverRelease hinv hstep
  | enforcer =>
    cases hstep
    exact h.enforcer
  | revoker => exact h.revoker hstep
  | lose m => exact hlossless.elim

/-- Both invariants hold in every state that a run without losses reaches. -/
theorem liveInv_of_reachable (h : lockSystem.Reachable Lossless s) :
    LockInv s ∧ LiveInv s := by
  refine h.invariant (I := fun s => LockInv s ∧ LiveInv s) ?_
    fun _ _ _ hinv hlossless hstep => ⟨hinv.1.next hstep, hinv.2.next hinv.1 hlossless hstep⟩
  rintro s rfl
  exact ⟨.start, .start⟩

/-! ## The waiting threads -/

namespace Pc

/-- The thread cannot go on in `acquire` by itself: it is in a call, or it waits for a condition. -/
def Blocked (lid : LockId) : Pc → Prop
  | awaitReply l _ | waitOwned l _ | waitFree l _ => l = lid
  | _ => False

instance (lid : LockId) : DecidablePred (Blocked lid)
  | awaitReply l _ | waitOwned l _ | waitFree l _ => inferInstanceAs (Decidable (l = lid))
  | idle | entered _ | acquireLock _ | back _ | dorelease _ | releasing _ =>
    inferInstanceAs (Decidable False)

/-- The thread is counted by `awaiting_lock`, and it goes on as soon as it gets `sync_root`. -/
def Ready (lid : LockId) : Pc → Prop
  | acquireLock l | back l | waitOwned l true | waitFree l true => l = lid
  | _ => False

end Pc

/-- The thread waits inside `acquire`. -/
def Waiting (s : LockState) (c t : ℕ) (lid : LockId) : Prop := ((s.clients c).pc t).Blocked lid

/-- The client owns the lock, no thread of it holds the lock, and this one waits for it and goes on
as soon as it gets `sync_root`. -/
def CanTake (s : LockState) (c t : ℕ) (lid : LockId) : Prop :=
  ((s.clients c).info lid).owned = true ∧ ((s.clients c).info lid).holder = LockInfo.FREE ∧
    ((s.clients c).pc t).Ready lid

/-- Something is going to happen to the lock: a thread that holds it will release it, a message
about it will arrive, the revoker or the enforcer will ask for it, or a thread will take it. -/
def Progress (s : LockState) (lid : LockId) : Prop :=
  (∃ c t, Holds s c t lid) ∨ (∃ m ∈ s.msgs, m.lid = lid) ∨
    (∃ request ∈ s.server.revoke_queue, request.lid = lid) ∨ (s.server.info lid).due = true ∨
    ∃ c t, CanTake s c t lid

/-- A thread that waits for a lock takes it when the client owns it and no thread holds it. -/
theorem Client.run_takes {cl : Client} {id : String} {t : ℕ} {lock : LockInfo}
    (hhandler : cl.handler = none) (hlock : cl.lock_list lid = some lock)
    (howned : lock.owned = true) (hfree : lock.holder = LockInfo.FREE)
    (hpc : cl.pc t = .back lid ∨ cl.pc t = .waitOwned lid true ∨ cl.pc t = .waitFree lid true) :
    cl.run id t = some ((cl.setLock lid (lock.take t)).acquired t lid, []) := by
  unfold run
  rw [if_pos hhandler]
  rcases hpc with hpc | hpc | hpc
  all_goals simp [hpc, hlock, awaitOwned, awaitFree, howned, hfree]

/-- A thread that was going to ask for a lock finds that the client owns it. -/
theorem Client.run_acquireLock {cl : Client} {id : String} {t : ℕ} {lock : LockInfo}
    (hhandler : cl.handler = none) (hlock : cl.lock_list lid = some lock)
    (howned : lock.owned = true) (hpc : cl.pc t = .acquireLock lid) :
    cl.run id t = some (cl.goto t (.back lid), []) := by
  unfold run
  rw [if_pos hhandler]
  simp [hpc, hlock, howned]

/-- A thread that can take the lock has it after its next steps, once no revoke handler is in the
way. -/
theorem CanTake.takes {c t : ℕ} (h : CanTake s c t lid) (hhandler : (s.clients c).handler = none) :
    ∃ n ≤ 2, ∃ s', lockSystem.exec s (List.replicate n (.run c t)) = some s' ∧
      Holds s' c t lid := by
  obtain ⟨howned, hfree, hready⟩ := h
  -- A lock that the client owns has a record.
  obtain ⟨lock, hlock⟩ : ∃ lock, (s.clients c).lock_list lid = some lock := by
    cases hget : (s.clients c).lock_list lid with
    | none =>
      rw [Client.info, hget] at howned
      cases howned
    | some lock => exact ⟨lock, rfl⟩
  rw [Client.info_eq hlock] at howned hfree
  have htakes : ∀ (s' : LockState), (s'.clients c).handler = none →
      (s'.clients c).lock_list lid = some lock →
      ((s'.clients c).pc t = .back lid ∨ (s'.clients c).pc t = .waitOwned lid true ∨
        (s'.clients c).pc t = .waitFree lid true) →
      ∃ s'', s'.next (.run c t) = some s'' ∧ Holds s'' c t lid := by
    intro s' hhandler' hlock' hpc
    refine ⟨_, Option.map_eq_some_iff.mpr ⟨_, Client.run_takes hhandler' hlock' howned hfree hpc,
      rfl⟩, ?_⟩
    simp [Holds, LockState.setClient, Client.acquired]
  have hone : ((s.clients c).pc t = .back lid ∨ (s.clients c).pc t = .waitOwned lid true ∨
      (s.clients c).pc t = .waitFree lid true) →
      ∃ n ≤ 2, ∃ s', lockSystem.exec s (List.replicate n (.run c t)) = some s' ∧
        Holds s' c t lid := by
    intro hpc
    obtain ⟨s', hstep, hholds⟩ := htakes s hhandler hlock hpc
    exact ⟨1, by omega, s', by simp [System.exec, lockSystem, hstep], hholds⟩
  cases hpc : (s.clients c).pc t with
  | acquireLock l =>
    rw [hpc] at hready
    obtain rfl : l = lid := hready
    have hfirst : s.next (.run c t) = some (s.setClient c ((s.clients c).goto t (.back l))) :=
      Option.map_eq_some_iff.mpr ⟨_, Client.run_acquireLock hhandler hlock howned hpc, rfl⟩
    obtain ⟨s', hstep, hholds⟩ := htakes (s.setClient c ((s.clients c).goto t (.back l)))
      (by simpa [LockState.setClient, Client.goto] using hhandler)
      (by simpa [LockState.setClient, Client.goto] using hlock)
      (Or.inl (by simp [LockState.setClient, Client.pc_goto]))
    exact ⟨2, le_rfl, s', by simp [System.exec, lockSystem, hfirst, hstep], hholds⟩
  | back l =>
    rw [hpc] at hready
    obtain rfl : l = lid := hready
    exact hone (Or.inl hpc)
  | waitOwned l b =>
    rw [hpc] at hready
    cases b with
    | false => exact hready.elim
    | true =>
      obtain rfl : l = lid := hready
      exact hone (Or.inr (Or.inl hpc))
  | waitFree l b =>
    rw [hpc] at hready
    cases b with
    | false => exact hready.elim
    | true =>
      obtain rfl : l = lid := hready
      exact hone (Or.inr (Or.inr hpc))
  | _ =>
    rw [hpc] at hready
    exact hready.elim

section Waiter

variable {s : LockState} {c t : ℕ} {lid : LockId}

/-- A message of some kind is in flight. -/
theorem exists_of_inFlight {id : String} {k : Kind} (h : 0 < inFlight s.msgs id lid k) :
    ∃ m ∈ s.msgs, m.lid = lid := by
  obtain ⟨m, hm, his⟩ := List.countP_pos_iff.mp h
  exact ⟨m, hm, (of_decide_eq_true his).2.2⟩

/-- A lock that has a holder at a client is held by a thread of it. -/
theorem LockInv.exists_holds (h : LockInv s)
    (hholder : ((s.clients c).info lid).holder ≠ LockInfo.FREE) : ∃ t, Holds s c t lid := by
  obtain ⟨t, ht⟩ := Nat.exists_eq_succ_of_ne_zero hholder
  exact ⟨t, ((h.clients c).held t lid).mpr ht⟩

/-- A lock that is being given back is given back by a thread or by a revoke handler. -/
theorem exists_givesBack (h : 0 < ((s.clients c).flags lid).flushes) :
    ∃ w : Worker, w.GivesBack (s.clients c) lid := by
  by_cases hhandler : (s.clients c).handler = some lid
  · exact ⟨.handler, hhandler⟩
  · by_contra hnone
    have hzero : countAt (Pc.Flushes lid) (s.clients c).pc = 0 :=
      countAt_eq_zero fun t ht => hnone ⟨.thread t, ht⟩
    have hflushes : ((s.clients c).flags lid).flushes = 0 := by
      unfold Client.flags
      rw [hzero, if_neg hhandler]
    omega

/-- A thread in a call of `acquire` has a message in flight. -/
theorem LiveInv.exists_of_awaitReply (h : LiveInv s) (hinv : LockInv s) {xid : ℕ}
    (hpc : (s.clients c).pc t = .awaitReply lid xid) : ∃ m ∈ s.msgs, m.lid = lid := by
  have hpos := (Client.asks_goto_back (hinv.clients c).finite hpc).1
  have hcalls := (h.live c lid).calls
  have hkinds : 0 < inFlight s.msgs (clientId c) lid .request ∨
      0 < inFlight s.msgs (clientId c) lid .ok ∨ 0 < inFlight s.msgs (clientId c) lid .wait := by
    omega
  rcases hkinds with hk | hk | hk
  all_goals exact exists_of_inFlight hk

/-- Where a client owns a lock that a thread of it waits for, a thread holds the lock, can take it
or is about to get an answer. -/
theorem LiveInv.progress_of_owned (h : LiveInv s) (hinv : LockInv s)
    (howned : ((s.clients c).info lid).owned = true) (hwaits : ((s.clients c).pc t).Waits lid) :
    Progress s lid := by
  by_cases hholder : ((s.clients c).info lid).holder = LockInfo.FREE
  case neg => exact Or.inl ⟨c, hinv.exists_holds hholder⟩
  have htake : ((s.clients c).pc t).Ready lid → Progress s lid := fun hready =>
    Or.inr (Or.inr (Or.inr (Or.inr ⟨c, t, howned, hholder, hready⟩)))
  cases hpc : (s.clients c).pc t with
  | acquireLock l | back l =>
    rw [hpc] at hwaits htake
    exact htake hwaits
  | awaitReply l xid =>
    rw [hpc] at hwaits
    obtain rfl : l = lid := hwaits
    exact Or.inr (Or.inl (h.exists_of_awaitReply hinv hpc))
  | waitOwned l b =>
    rw [hpc] at hwaits htake
    obtain rfl : l = lid := hwaits
    cases b with
    | false =>
      -- A thread that was not signaled does not wait for a lock that the client owns.
      rw [(h.wakeful c).waitOwned t l hpc] at howned
      cases howned
    | true => exact htake rfl
  | waitFree l b =>
    rw [hpc] at hwaits htake
    obtain rfl : l = lid := hwaits
    cases b with
    | false => exact absurd hholder ((h.wakeful c).waitFree t l hpc)
    | true => exact htake rfl
  | _ =>
    rw [hpc] at hwaits
    exact hwaits.elim

/-- Something happens to a lock that another client waits for: its holder has it, gets it or gives
it back. -/
theorem LiveInv.progress_of_queued (h : LiveInv s) (hinv : LockInv s) {id : String}
    (hid : id ∈ (s.server.info lid).queue) :
    Progress s lid ∨ ∃ c, ∃ w : Worker, w.GivesBack (s.clients c) lid := by
  have hqueue : (s.server.info lid).queue ≠ [] := List.ne_nil_of_mem hid
  obtain hfree | ⟨c₀, hholder⟩ := h.holder lid
  · exact absurd (h.free lid hfree).2 hqueue
  have hheld := (h.live c₀ lid).held
  have hasked := (h.live c₀ lid).asked
  rw [decide_eq_true hholder, Bool.toNat_true] at hheld hasked
  have hmsg : ∀ k, 0 < inFlight s.msgs (clientId c₀) lid k →
      Progress s lid ∨ ∃ c, ∃ w : Worker, w.GivesBack (s.clients c) lid :=
    fun k hk => Or.inl (Or.inr (Or.inl (exists_of_inFlight hk)))
  have hflush : 0 < ((s.clients c₀).flags lid).flushes →
      Progress s lid ∨ ∃ c, ∃ w : Worker, w.GivesBack (s.clients c) lid :=
    fun hpos => Or.inr ⟨c₀, exists_givesBack hpos⟩
  by_cases hrevoked : (s.server.info lid).revoked = true
  case neg =>
    -- Nobody has asked the holder: the enforcer is going to.
    refine Or.inl (Or.inr (Or.inr (Or.inr (Or.inl ?_))))
    simp [CachedLockInfo.due, hqueue, hrevoked]
  rw [hrevoked, Bool.toNat_true] at hasked
  have hsigns : 0 < ((s.clients c₀).flags lid).flushes ∨
      0 < inFlight s.msgs (clientId c₀) lid .release ∨
      0 < inFlight s.msgs (clientId c₀) lid .revoke ∨
      0 < s.server.revoke_queue.count ⟨clientId c₀, lid⟩ ∨
      0 < ((s.clients c₀).flags lid).revoked.toNat := by omega
  rcases hsigns with hpos | hpos | hpos | hpos | hpos
  · exact hflush hpos
  · exact hmsg _ hpos
  · exact hmsg _ hpos
  · exact Or.inl (Or.inr (Or.inr (Or.inl ⟨_, List.count_pos_iff.mp hpos, rfl⟩)))
  · -- The holder knows that the lock is wanted back. It has it, or is about to get it.
    have hflag : ((s.clients c₀).info lid).revoked = true := by
      by_contra hfalse
      rw [show ((s.clients c₀).flags lid).revoked = false from
        Bool.eq_false_of_not_eq_true hfalse] at hpos
      cases hpos
    have hplaces : 0 < ((s.clients c₀).flags lid).owned.toNat ∨
        0 < inFlight s.msgs (clientId c₀) lid .ok ∨
        0 < inFlight s.msgs (clientId c₀) lid .retry ∨
        0 < ((s.clients c₀).flags lid).flushes ∨
        0 < inFlight s.msgs (clientId c₀) lid .release := by omega
    rcases hplaces with hpos | hpos | hpos | hpos | hpos
    · have howned : ((s.clients c₀).info lid).owned = true := by
        by_contra hfalse
        rw [show ((s.clients c₀).flags lid).owned = false from
          Bool.eq_false_of_not_eq_true hfalse] at hpos
        cases hpos
      rcases (h.wakeful c₀).revoked lid hflag with hthread | hwaiting
      · exact Or.inl (Or.inl ⟨c₀, hinv.exists_holds hthread⟩)
      · -- A thread of the holder waits for the lock, and keeps the client from giving it back.
        rw [(hinv.clients c₀).awaiting lid] at hwaiting
        obtain ⟨t, ht⟩ : ∃ t, ((s.clients c₀).pc t).Waits lid := by
          by_contra hnone
          rw [countAt_eq_zero fun t ht => hnone ⟨t, ht⟩] at hwaiting
          cases hwaiting
        exact Or.inl (h.progress_of_owned hinv howned ht)
    · exact hmsg _ hpos
    · exact hmsg _ hpos
    · exact hflush hpos
    · exact hmsg _ hpos

/-- While a thread waits inside `acquire`, a thread holds the lock or can take it, a message about
it is in flight, the revoker or the enforcer has something to do for it, or a thread or a revoke
handler of the client that had it is in `dorelease` and sends it back next. -/
theorem no_stuck_waiter (h : lockSystem.Reachable Lossless s) (hwaiting : Waiting s c t lid) :
    Progress s lid ∨ ∃ c', ∃ w : Worker, w.GivesBack (s.clients c') lid := by
  obtain ⟨hinv, hlive⟩ := liveInv_of_reachable h
  unfold Waiting at hwaiting
  cases hpc : (s.clients c).pc t with
  | awaitReply l xid =>
    rw [hpc] at hwaiting
    obtain rfl : l = lid := hwaiting
    exact Or.inl (Or.inr (Or.inl (hlive.exists_of_awaitReply hinv hpc)))
  | waitFree l b =>
    rw [hpc] at hwaiting
    obtain rfl : l = lid := hwaiting
    exact Or.inl (hlive.progress_of_owned hinv ((hinv.clients c).waitFree t l b hpc)
      (by rw [hpc]; rfl))
  | waitOwned l b =>
    rw [hpc] at hwaiting
    obtain rfl : l = lid := hwaiting
    rcases (hlive.wakeful c).relies t l (by rw [hpc]; rfl) with howned | hacquiring
    · exact Or.inl (hlive.progress_of_owned hinv howned (by rw [hpc]; rfl))
    · -- The client asked for the lock: its request or an answer is in flight, or it is queued.
      have hrequested := (hlive.live c l).requested
      rw [show ((s.clients c).flags l).acquiring = true from hacquiring, Bool.toNat_true]
        at hrequested
      have hsigns : 0 < inFlight s.msgs (clientId c) l .request ∨
          0 < inFlight s.msgs (clientId c) l .ok ∨ 0 < inFlight s.msgs (clientId c) l .retry ∨
          0 < (s.server.info l).queue.count (clientId c) := by omega
      rcases hsigns with hpos | hpos | hpos | hpos
      · exact Or.inl (Or.inr (Or.inl (exists_of_inFlight hpos)))
      · exact Or.inl (Or.inr (Or.inl (exists_of_inFlight hpos)))
      · exact Or.inl (Or.inr (Or.inl (exists_of_inFlight hpos)))
      · exact hlive.progress_of_queued hinv (List.count_pos_iff.mp hpos)
  | _ =>
    rw [hpc] at hwaiting
    exact hwaiting.elim

end Waiter

/-- Client 1 gets lock 7, a thread of client 2 waits for it, and client 1 is told to give it back
while its thread holds the lock. -/
def askedBack : List LockEvent :=
  [.acquire 1 0 7, .run 1 0, .run 1 0, .serverAcquire 7 (clientId 1) 0, .reply 1 0 .OK, .run 1 0,
   .acquire 2 0 7, .run 2 0, .run 2 0, .serverAcquire 7 (clientId 2) 0, .reply 2 0 .RETRY, .run 2 0,
   .enforcer, .revoker, .revoke 1 7]

/-- The thread of client 2 waits for lock 7 when client 1 was told to give it back. -/
theorem waiter_asked_back :
    ∃ s, lockSystem.exec .start askedBack = some s ∧ Waiting s 2 0 7 ∧
      (Progress s 7 ∨ ∃ c, ∃ w : Worker, w.GivesBack (s.clients c) 7) := by
  have hrun : (lockSystem.execGuarded Lossless .start askedBack).map
      (fun s => (s.clients 2).pc 0) = some (.waitOwned 7 false) := by decide
  obtain ⟨s, hexec, hpc⟩ := Option.map_eq_some_iff.mp hrun
  have hwaiting : Waiting s 2 0 7 := by
    unfold Waiting
    rw [hpc]
    rfl
  have hreachable := System.Reachable.of_execGuarded hexec rfl
  exact ⟨s, System.exec_of_execGuarded hexec, hwaiting, no_stuck_waiter hreachable hwaiting⟩

/-- When the thread of client 1 has let lock 7 go and is in `dorelease`, the thread of client 2
waits, and there is no other sign of the lock than that call. -/
theorem flushing_waiter :
    ∃ s, lockSystem.Reachable Lossless s ∧ Waiting s 2 0 7 ∧ ¬ Progress s 7 := by
  have hrun : (lockSystem.execGuarded Lossless .start (askedBack ++ [.release 1 0 7])).map
      (fun s => ((s.clients 2).pc 0, ((s.clients 1).info 7).owned, s.msgs,
        s.server.revoke_queue.length, (s.server.info 7).due,
        decide ((s.server.info 7).holder = clientId 1))) =
      some (.waitOwned 7 false, false, [], 0, false, true) := by decide
  obtain ⟨s, hexec, hval⟩ := Option.map_eq_some_iff.mp hrun
  simp only [Prod.mk.injEq, decide_eq_true_eq, List.length_eq_zero_iff] at hval
  obtain ⟨hpc, hnot, hmsgs, hqueue, hdue, hholder⟩ := hval
  have hreachable := System.Reachable.of_execGuarded hexec rfl
  have hinv := (liveInv_of_reachable hreachable).1
  -- The server has client 1 for the holder, so that no other client owns the lock.
  have hnobody : ∀ c, ((s.clients c).info 7).owned ≠ true := by
    intro c howned
    have hc : clientId c = clientId 1 := (hinv.holder_eq (Or.inl howned)).symm.trans hholder
    rw [clientId_inj.mp hc, hnot] at howned
    cases howned
  refine ⟨s, hreachable, ?_, ?_⟩
  · unfold Waiting
    rw [hpc]
    rfl
  · rintro (⟨c, t, hholds⟩ | ⟨m, hm, -⟩ | ⟨r, hr, -⟩ | htrue | ⟨c, t, htake⟩)
    · exact hnobody c (hinv.owned_of_holds hholds)
    · rw [hmsgs] at hm
      cases hm
    · rw [hqueue] at hr
      cases hr
    · rw [hdue] at htrue
      cases htrue
    · exact hnobody c htake.1

end SimpleDfs.Lock
