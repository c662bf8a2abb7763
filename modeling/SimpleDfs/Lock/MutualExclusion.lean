import SimpleDfs.Lock.Invariant

/-!
# Mutual exclusion

In every reachable state of the lock clients and the lock server, at most one thread of all clients
holds a lock. The invariant `LockInv` puts the invariant of each client and the one for each client
and lock together; each event keeps it. What the events at the server do to a client and a lock is
said once (`Served`), for this invariant and for others.
-/

namespace SimpleDfs.Lock

/-! ## Messages of one client about one lock -/

/-- A message that is sent counts for the client and the lock that it is about. -/
theorem inFlight_cons_self (m : Msg) (msgs : List Msg) (k : Kind) :
    inFlight (m :: msgs) m.id m.lid k =
      inFlight msgs m.id m.lid k + if m.kind = k then 1 else 0 := by
  rw [inFlight_cons]
  simp [Msg.Is]

variable {msgs : List Msg} {m : Msg}

/-- A message that is sent does not count for any other client or lock. -/
theorem inFlight_cons_of_ne {id : String} {lid : LockId} (h : m.id ≠ id ∨ m.lid ≠ lid)
    (msgs : List Msg) (k : Kind) : inFlight (m :: msgs) id lid k = inFlight msgs id lid k := by
  rw [inFlight_cons, if_neg, Nat.add_zero]
  rintro ⟨-, hid, hlid⟩
  exact h.elim (fun hne => hne hid) fun hne => hne hlid

/-- A message that arrives counted for the client and the lock that it is about. -/
theorem inFlight_erase_self (h : m ∈ msgs) (k : Kind) :
    inFlight (msgs.erase m) m.id m.lid k + (if m.kind = k then 1 else 0) =
      inFlight msgs m.id m.lid k := by
  rw [← inFlight_erase h]
  simp [Msg.Is]

/-- A message arrives and is answered. -/
theorem inFlight_exchange (h : m ∈ msgs) (m' : Msg) (hid : m'.id = m.id) (hlid : m'.lid = m.lid)
    (k : Kind) :
    inFlight (m' :: msgs.erase m) m.id m.lid k + (if m.kind = k then 1 else 0) =
      inFlight msgs m.id m.lid k + if m'.kind = k then 1 else 0 := by
  have hcons := inFlight_cons_self m' (msgs.erase m) k
  rw [hid, hlid] at hcons
  have herase := inFlight_erase_self h k
  omega

/-- No message is added when one arrives. -/
theorem inFlight_erase_le (m : Msg) (msgs : List Msg) (id : String) (lid : LockId) (k : Kind) :
    inFlight (msgs.erase m) id lid k ≤ inFlight msgs id lid k := by
  by_cases h : m ∈ msgs
  · have hcount := inFlight_erase h id lid k
    omega
  · rw [List.erase_of_not_mem h]

/-- A message that arrives did not count for any other client or lock. -/
theorem inFlight_erase_of_ne {id : String} {lid : LockId} (h : m.id ≠ id ∨ m.lid ≠ lid)
    (hm : m ∈ msgs) (k : Kind) :
    inFlight (msgs.erase m) id lid k = inFlight msgs id lid k := by
  rw [← inFlight_erase hm id lid k, if_neg, Nat.add_zero]
  rintro ⟨-, hid, hlid⟩
  exact h.elim (fun hne => hne hid) fun hne => hne hlid

/-- A message in flight is counted. -/
theorem inFlight_pos (h : m ∈ msgs) :
    0 < inFlight msgs m.id m.lid m.kind := by
  rw [← inFlight_erase_self h]
  simp

/-! ## What the server does -/

/-- What the messages and the server say of a client and a lock. -/
structure Share where
  /-- The messages in flight, of each kind. -/
  tr : Kind → ℕ
  /-- The client is the holder. -/
  holds : Bool
  /-- The holder was asked. -/
  revoked : Bool
  /-- How often the client is queued. -/
  queued : ℕ
  /-- How often the client is about to be asked. -/
  due : ℕ

/-- What they say in a state. -/
def LockState.share (s : LockState) (c : ℕ) (lid : LockId) : Share where
  tr := inFlight s.msgs (clientId c) lid
  holds := decide ((s.server.info lid).holder = clientId c)
  revoked := (s.server.info lid).revoked
  queued := (s.server.info lid).queue.count (clientId c)
  due := s.server.revoke_queue.count ⟨clientId c, lid⟩

/-- What an event at the server does to a client and a lock whose record was `info`. -/
inductive Served (info : CachedLockInfo) : Share → Share → Prop
  /-- Nothing. -/
  | same (v : Share) : Served info v v
  /-- A free lock is granted. -/
  | grant {tr tr' : Kind → ℕ} {queued due : ℕ} (hfree : info.holder = LockServer.FREE)
      (htr : ∀ k, tr' k + (if Kind.request = k then 1 else 0) =
        tr k + if Kind.ok = k then 1 else 0) :
      Served info ⟨tr, false, info.revoked, queued, due⟩ ⟨tr', true, info.revoked, queued, due⟩
  /-- The client is queued. -/
  | enqueue {tr tr' : Kind → ℕ} {holds revoked : Bool} {queued due : ℕ}
      (htr : ∀ k, tr' k + (if Kind.request = k then 1 else 0) =
        tr k + if Kind.wait = k then 1 else 0) :
      Served info ⟨tr, holds, revoked, queued, due⟩ ⟨tr', holds, revoked, queued + 1, due⟩
  /-- The lock is given back, by this client or by the holder. -/
  | vacate {tr tr' : Kind → ℕ} {holds revoked : Bool} {queued due : ℕ}
      (htr : holds = false ∧ (∀ k, tr' k = tr k) ∨
        ∀ k, tr' k + (if Kind.release = k then 1 else 0) = tr k) :
      Served info ⟨tr, holds, revoked, queued, due⟩ ⟨tr', false, false, queued, due⟩
  /-- The lock is given back and passed on to this client. -/
  | passOn {tr tr' tr'' : Kind → ℕ} {holds revoked : Bool} {queued due : ℕ}
      (htr : holds = false ∧ (∀ k, tr' k = tr k) ∨
        ∀ k, tr' k + (if Kind.release = k then 1 else 0) = tr k)
      (hretry : ∀ k, tr'' k = tr' k + if Kind.retry = k then 1 else 0) :
      Served info ⟨tr, holds, revoked, queued + 1, due⟩ ⟨tr'', true, false, queued, due⟩
  /-- The holder is about to be asked. -/
  | enforce {tr : Kind → ℕ} {holds : Bool} {queued due : ℕ} :
      Served info ⟨tr, holds, false, queued, due⟩ ⟨tr, holds, true, queued, due + holds.toNat⟩
  /-- The client is asked. -/
  | sendRevoke {tr tr' : Kind → ℕ} {holds revoked : Bool} {queued due : ℕ}
      (htr : ∀ k, tr' k = tr k + if Kind.revoke = k then 1 else 0) :
      Served info ⟨tr, holds, revoked, queued, due + 1⟩ ⟨tr', holds, revoked, queued, due⟩

section Served

variable {s s' : LockState} {lid : LockId} {id : String}

/-- An `acquire` arrives at the server. -/
theorem served_acquire {xid : ℕ} (hm : Msg.acquire lid id xid ∈ s.msgs) (c : ℕ) (l : LockId) :
    Served (s.server.info l) (s.share c l) (LockState.share
      ⟨(s.server.acquire lid id).2, s.clients, .reply lid id xid (s.server.acquire lid id).1 ::
        s.msgs.erase (.acquire lid id xid)⟩ c l) := by
  have hother : ∀ status, id ≠ clientId c ∨ lid ≠ l → inFlight (.reply lid id xid status ::
      s.msgs.erase (.acquire lid id xid)) (clientId c) l = inFlight s.msgs (clientId c) l := by
    intro status hne
    funext k
    rw [inFlight_cons_of_ne (m := .reply lid id xid status) hne,
      inFlight_erase_of_ne (m := .acquire lid id xid) hne hm]
  unfold LockState.share
  dsimp only
  rw [LockServer.info_acquire, LockServer.revoke_queue_acquire]
  by_cases hl : l = lid
  · subst hl
    rw [if_pos rfl]
    by_cases hfree : (s.server.info l).holder = LockServer.FREE
    · rw [if_pos hfree, hfree, decide_eq_false (Ne.symm (clientId_ne_free c))]
      by_cases hid : id = clientId c
      · subst hid
        rw [decide_eq_true rfl]
        rw [LockServer.acquire_fst, if_pos hfree]
        exact .grant hfree (inFlight_exchange hm (.reply l (clientId c) xid .OK) rfl rfl)
      · rw [decide_eq_false hid, hother _ (Or.inl hid)]
        exact .same _
    · rw [if_neg hfree]
      dsimp only
      rw [List.count_append]
      by_cases hid : id = clientId c
      · subst hid
        rw [List.count_singleton_self]
        rw [LockServer.acquire_fst, if_neg hfree]
        exact .enqueue (inFlight_exchange hm (.reply l (clientId c) xid .RETRY) rfl rfl)
      · rw [List.count_singleton, if_neg (by simpa using hid), hother _ (Or.inl hid)]
        exact .same _
  · rw [if_neg hl, hother _ (Or.inr (Ne.symm hl))]
    exact .same _

/-- A `release` of the holder arrives at the server. -/
theorem served_release {server : LockServer} {next : Option String}
    (hm : Msg.release lid id ∈ s.msgs) (hholder : (s.server.info lid).holder = id)
    (hrelease : s.server.release lid id = some (server, next)) (c : ℕ) (l : LockId) :
    Served (s.server.info l) (s.share c l) (LockState.share ⟨server, s.clients,
      (next.map (.retry lid)).toList ++ s.msgs.erase (.release lid id)⟩ c l) := by
  obtain ⟨hinfo, hhead, hqueue⟩ := LockServer.info_release hrelease l
  unfold LockState.share
  dsimp only
  rw [hinfo, hqueue]
  by_cases hl : l = lid
  · subst hl
    rw [if_pos rfl]
    -- The message is from this client, or this client is not the holder.
    have hgone : decide ((s.server.info l).holder = clientId c) = false ∧
        (∀ k, inFlight (s.msgs.erase (.release l id)) (clientId c) l k =
          inFlight s.msgs (clientId c) l k) ∨
        ∀ k, inFlight (s.msgs.erase (.release l id)) (clientId c) l k +
          (if Kind.release = k then 1 else 0) = inFlight s.msgs (clientId c) l k := by
      by_cases hid : id = clientId c
      · subst hid
        exact Or.inr (inFlight_erase_self hm)
      · rw [hholder, decide_eq_false hid]
        exact Or.inl ⟨rfl, inFlight_erase_of_ne (m := .release l id) (Or.inl hid) hm⟩
    cases next with
    | none =>
      have hnil : (s.server.info l).queue = [] := List.head?_eq_none_iff.mp hhead.symm
      rw [hnil]
      dsimp only [Option.getD_none]
      rw [decide_eq_false (Ne.symm (clientId_ne_free c))]
      exact .vacate hgone
    | some next =>
      obtain ⟨rest, hcons⟩ := List.head?_eq_some_iff.mp hhead.symm
      rw [hcons]
      dsimp only [Option.getD_some, List.tail_cons, Option.map_some, Option.toList_some,
        List.cons_append, List.nil_append]
      by_cases hc : next = clientId c
      · -- The lock is passed on to this client, which may be the one that gave it back.
        subst hc
        rw [decide_eq_true rfl, List.count_cons_self]
        exact .passOn hgone (inFlight_cons_self (.retry l (clientId c)) _)
      · rw [decide_eq_false hc, List.count_cons_of_ne hc,
          funext (inFlight_cons_of_ne (m := .retry l next) (Or.inl hc) _)]
        exact .vacate hgone
  · have hmsgs : inFlight ((next.map (Msg.retry lid)).toList ++ s.msgs.erase (.release lid id))
        (clientId c) l = inFlight s.msgs (clientId c) l := by
      funext k
      rw [← inFlight_erase_of_ne (m := .release lid id) (Or.inr (Ne.symm hl)) hm k]
      cases next with
      | none => rfl
      | some next => exact inFlight_cons_of_ne (Or.inr (Ne.symm hl)) _ k
    rw [if_neg hl, hmsgs]
    exact .same _

/-- A pass of the enforcer. -/
theorem served_enforcer (s : LockState) (c : ℕ) (l : LockId) :
    Served (s.server.info l) (s.share c l)
      (LockState.share { s with server := s.server.enforcer } c l) := by
  have hle := LockServer.count_enforcer_le s.server ⟨clientId c, l⟩
  have hge := LockServer.count_le_enforcer s.server ⟨clientId c, l⟩
  unfold LockState.share
  dsimp only at hle ⊢
  rw [LockServer.info_enforcer]
  by_cases hdue : (s.server.info l).due = true
  · -- The holder was not asked before, and is now.
    have hrevoked : (s.server.info l).revoked = false := by
      simp only [CachedLockInfo.due, Bool.and_eq_true, Bool.not_eq_true'] at hdue
      exact hdue.2
    rw [if_pos hdue, hrevoked]
    dsimp only
    have hcount : s.server.enforcer.revoke_queue.count ⟨clientId c, l⟩ =
        s.server.revoke_queue.count ⟨clientId c, l⟩ +
          (decide ((s.server.info l).holder = clientId c)).toNat := by
      by_cases hholder : (s.server.info l).holder = clientId c
      · have hlt := LockServer.count_lt_enforcer s.server (r := ⟨clientId c, l⟩) hdue hholder
        rw [if_pos ⟨hdue, hholder⟩] at hle
        rw [decide_eq_true hholder, Bool.toNat_true]
        omega
      · rw [if_neg fun hboth => hholder hboth.2] at hle
        rw [decide_eq_false hholder, Bool.toNat_false]
        omega
    rw [hcount]
    exact .enforce
  · rw [if_neg fun hboth => hdue hboth.1, Nat.add_zero] at hle
    rw [if_neg hdue, Nat.le_antisymm hle hge]
    exact .same _

/-- The revoker sends a request. -/
theorem served_revoker {request : RevokeRequest} {server : LockServer}
    (hrevoker : s.server.revoker = some (request, server)) (c : ℕ) (l : LockId) :
    Served (s.server.info l) (s.share c l) (LockState.share
      ⟨server, s.clients, .revoke request.lid request.holder :: s.msgs⟩ c l) := by
  unfold LockServer.revoker at hrevoker
  split at hrevoker
  next => cases hrevoker
  next rest hqueue =>
    cases hrevoker
    unfold LockState.share
    dsimp only
    rw [hqueue]
    by_cases hr : request = ⟨clientId c, l⟩
    · -- The request leaves the queue, and the message is in flight.
      subst hr
      rw [List.count_cons_self]
      exact .sendRevoke (inFlight_cons_self (.revoke l (clientId c)) s.msgs)
    · have hne : request.holder ≠ clientId c ∨ request.lid ≠ l := by
        by_contra hboth
        simp only [not_or, not_not] at hboth
        exact hr (by rw [← hboth.1, ← hboth.2])
      rw [List.count_cons_of_ne hr,
        funext (inFlight_cons_of_ne (m := .revoke request.lid request.holder) hne s.msgs)]
      exact .same _

end Served

/-- What the server does keeps a client and a lock in order. -/
theorem Sound.served {fl : Flags} {info : CachedLockInfo} {v v' : Share}
    (h : Sound fl v.tr v.holds v.revoked v.queued v.due) (hserved : Served info v v') :
    Sound fl v'.tr v'.holds v'.revoked v'.queued v'.due := by
  cases hserved with
  | same => exact h
  | grant _ htr => exact h.grant htr
  | enqueue htr => exact h.enqueue htr
  | vacate htr => exact h.vacate htr
  | passOn htr hretry => exact (h.vacate htr).passOn hretry
  | enforce => exact h.enforce le_rfl
  | sendRevoke htr => exact h.sendRevoke htr

/-! ## The joint invariant -/

/-- The invariant for a client and a lock. -/
def LockServer.SoundAt (server : LockServer) (c : ℕ) (lid : LockId) (fl : Flags)
    (tr : Kind → ℕ) : Prop :=
  Sound fl tr (decide ((server.info lid).holder = clientId c)) (server.info lid).revoked
    ((server.info lid).queue.count (clientId c)) (server.revoke_queue.count ⟨clientId c, lid⟩)

/-- The joint invariant of the clients, the server and the messages. -/
structure LockInv (s : LockState) : Prop where
  /-- The records and the threads of each client belong together. -/
  clients : ∀ c, ClientInv (s.clients c)
  /-- What each client knows of a lock agrees with what the server knows. -/
  sound : ∀ c lid,
    s.server.SoundAt c lid ((s.clients c).flags lid) (inFlight s.msgs (clientId c) lid)
  /-- Only clients give locks back. -/
  senders : ∀ lid id, Msg.release lid id ∈ s.msgs → ∃ c, id = clientId c

namespace LockInv

variable {s s' : LockState} {c : ℕ} {cl : Client} {lid : LockId} {fl : Flags} {t : ℕ} {id : String}
  {m : Msg}

/-- A client changes what it knows of one lock, and the messages about it change. -/
theorem update (h : LockInv s) {msgs : List Msg} (hcl : ClientInv cl)
    (hflags : cl.flags = Function.update (s.clients c).flags lid fl)
    (hsound : s.server.SoundAt c lid fl (inFlight msgs (clientId c) lid))
    (hframe : ∀ c' l k, clientId c ≠ clientId c' ∨ lid ≠ l →
      inFlight msgs (clientId c') l k ≤ inFlight s.msgs (clientId c') l k)
    (hsenders : ∀ l id, Msg.release l id ∈ msgs → Msg.release l id ∈ s.msgs ∨ id = clientId c) :
    LockInv { s.setClient c cl with msgs := msgs } where
  clients c' := by
    show ClientInv (Function.update s.clients c cl c')
    rw [Function.update_apply]
    split_ifs with hc
    · exact hcl
    · exact h.clients c'
  sound c' l := by
    show s.server.SoundAt c' l ((Function.update s.clients c cl c').flags l)
      (inFlight msgs (clientId c') l)
    by_cases hc : c' = c
    · subst hc
      rw [Function.update_self, hflags]
      by_cases hl : l = lid
      · subst hl
        rw [Function.update_self]
        exact hsound
      · rw [Function.update_of_ne hl]
        exact (h.sound c' l).mono fun k => hframe c' l k (Or.inr (Ne.symm hl))
    · rw [Function.update_of_ne hc]
      have hne : clientId c ≠ clientId c' := fun heq => hc (clientId_inj.mp heq).symm
      exact (h.sound c' l).mono fun k => hframe c' l k (Or.inl hne)
  senders l id hm := by
    rcases hsenders l id hm with hold | rfl
    · exact h.senders l id hold
    · exact ⟨c, rfl⟩

/-- A client changes what it knows of one lock, without a message. -/
theorem silent (h : LockInv s) (hcl : ClientInv cl)
    (hflags : cl.flags = Function.update (s.clients c).flags lid fl)
    (hsound : s.server.SoundAt c lid fl (inFlight s.msgs (clientId c) lid)) :
    LockInv (s.setClient c cl) :=
  h.update hcl hflags hsound (fun _ _ _ _ => Nat.le_refl _) fun _ _ => Or.inl

/-- A client keeps what it knows. -/
theorem sameFlags (h : LockInv s) (hcl : ClientInv cl) (hflags : cl.flags = (s.clients c).flags) :
    LockInv (s.setClient c cl) :=
  h.silent hcl (hflags.trans (Function.update_eq_self 0 _).symm) (h.sound c 0)

/-- A client sends a message about the lock. -/
theorem sends (h : LockInv s) (hid : m.id = clientId c) (hcl : ClientInv cl)
    (hflags : cl.flags = Function.update (s.clients c).flags m.lid fl)
    (hsound : s.server.SoundAt c m.lid fl (inFlight (m :: s.msgs) m.id m.lid)) :
    LockInv ((s.send m).setClient c cl) := by
  refine h.update hcl hflags (by rw [← hid]; exact hsound) (fun c' l k hne => ?_)
    fun l id hmem => ?_
  · exact (inFlight_cons_of_ne (by rw [hid]; exact hne) s.msgs k).le
  · rcases List.mem_cons.mp hmem with heq | hmem
    · refine Or.inr ?_
      rw [← hid, ← heq]
      rfl
    · exact Or.inl hmem

/-- A message about the lock arrives at a client. -/
theorem receives (h : LockInv s) (hid : m.id = clientId c) (hcl : ClientInv cl)
    (hflags : cl.flags = Function.update (s.clients c).flags m.lid fl)
    (hsound : s.server.SoundAt c m.lid fl (inFlight (s.msgs.erase m) m.id m.lid)) :
    LockInv ((s.take m).setClient c cl) := by
  refine h.update hcl hflags (by rw [← hid]; exact hsound) (fun c' l k _ => ?_) fun l id hmem => ?_
  · exact inFlight_erase_le m s.msgs (clientId c') l k
  · exact Or.inl (List.mem_of_mem_erase hmem)

/-! ## Events at a client -/

/-- A step of a thread in `acquire`. -/
theorem run (h : LockInv s) (hstep : s.next (.run c t) = some s') : LockInv s' := by
  obtain ⟨⟨cl, out⟩, hrun, rfl⟩ := Option.map_eq_some_iff.mp hstep
  obtain ⟨hcl, ⟨rfl, hflags⟩ | ⟨lid, rfl, hacquiring, howned, hflags⟩⟩ :=
    Client.run_spec (h.clients c) hrun
  · exact h.sameFlags hcl hflags
  · exact h.sends (m := .acquire lid (clientId c) (s.clients c).xid) rfl hcl hflags
      ((h.sound c lid).request hacquiring howned
        (inFlight_cons_self (.acquire lid (clientId c) _) s.msgs))

/-- The reply to a call arrives. -/
theorem reply (h : LockInv s) {status : Status} (hstep : s.next (.reply c t status) = some s') :
    LockInv s' := by
  simp only [LockState.next] at hstep
  split at hstep
  next lid xid hpc =>
    split_ifs at hstep with hm
    obtain ⟨cl, hreturns, rfl⟩ := Option.map_eq_some_iff.mp hstep
    obtain ⟨hcl, lid', xid', hpc', hcase⟩ := Client.acquireReturns_spec (h.clients c) hreturns
    rw [hpc] at hpc'
    obtain ⟨rfl, rfl⟩ := Pc.awaitReply.inj hpc'
    rcases hcase with ⟨hflags, -⟩ | ⟨howned, hflags⟩
    · -- The client owns the lock already, and the answer is dropped.
      exact h.receives (m := .reply lid (clientId c) xid status) rfl hcl
        (hflags.trans (Function.update_eq_self lid _).symm)
        ((h.sound c lid).mono (inFlight_erase_le _ s.msgs _ _))
    · refine h.receives (m := .reply lid (clientId c) xid status) rfl hcl hflags ?_
      cases status with
      | OK => exact (h.sound c lid).own (Or.inl rfl) (inFlight_erase_self hm)
      | RETRY => exact (h.sound c lid).wait howned (inFlight_erase_le _ s.msgs _ _)
  next => cases hstep

/-- A call returns an error. -/
theorem callFails (h : LockInv s) (hstep : s.next (.callFails c t) = some s') :
    LockInv s' := by
  obtain ⟨cl, hreturns, rfl⟩ := Option.map_eq_some_iff.mp hstep
  obtain ⟨hcl, lid, xid, -, ⟨hflags, -⟩ | ⟨howned, hflags⟩⟩ :=
    Client.acquireReturns_spec (h.clients c) hreturns
  · exact h.sameFlags hcl hflags
  · exact h.silent hcl hflags ((h.sound c lid).wait howned fun _ => Nat.le_refl _)

/-- A thread releases a lock. -/
theorem release (h : LockInv s) (hstep : s.next (.release c t lid) = some s') :
    LockInv s' := by
  obtain ⟨cl, hrelease, rfl⟩ := Option.map_eq_some_iff.mp hstep
  obtain ⟨hcl, howned, hflags | ⟨hrevoked, hflags⟩⟩ := Client.release_spec (h.clients c) hrelease
  · exact h.sameFlags hcl hflags
  · exact h.silent hcl hflags ((h.sound c lid).giveBack howned hrevoked)

/-- `dorelease` returned, and the lock is sent back. -/
theorem sendsBack (h : LockInv s) (hcl : ClientInv cl) (hm : m = .release lid (clientId c))
    (hflushes : 0 < ((s.clients c).flags lid).flushes)
    (hflags : cl.flags = Function.update (s.clients c).flags lid
      { (s.clients c).flags lid with flushes := ((s.clients c).flags lid).flushes - 1 }) :
    LockInv ((s.send m).setClient c cl) := by
  subst hm
  exact h.sends rfl hcl hflags
    ((h.sound c lid).sendBack hflushes (inFlight_cons_self (.release lid (clientId c)) s.msgs))

/-- A `revoke` arrives. -/
theorem revoke (h : LockInv s) (hstep : s.next (.revoke c lid) = some s') : LockInv s' := by
  simp only [LockState.next] at hstep
  split_ifs at hstep with hm
  obtain ⟨cl, hrevoke, rfl⟩ := Option.map_eq_some_iff.mp hstep
  obtain ⟨hcl, hidle | ⟨hacquiring, hflags⟩ | hflags⟩ :=
    Client.revokeHandler_spec (h.clients c) hrevoke
  · -- The record that the handler makes for a lock it knows nothing of is never needed.
    exact absurd hidle ((h.sound c lid).not_idle_of_revoke (inFlight_pos hm))
  · exact h.receives (m := .revoke lid (clientId c)) rfl hcl hflags
      ((h.sound c lid).giveBackRevoked hacquiring (inFlight_erase_self hm))
  · exact h.receives (m := .revoke lid (clientId c)) rfl hcl hflags
      ((h.sound c lid).remember (inFlight_erase_self hm))

/-- A `retry` arrives. -/
theorem retry (h : LockInv s) (hstep : s.next (.retry c lid) = some s') : LockInv s' := by
  simp only [LockState.next] at hstep
  split_ifs at hstep with hm
  obtain ⟨cl, hretry, rfl⟩ := Option.map_eq_some_iff.mp hstep
  obtain ⟨hcl, hflags⟩ := Client.retryHandler_spec (h.clients c) hretry
  exact h.receives (m := .retry lid (clientId c)) rfl hcl hflags
    ((h.sound c lid).own (Or.inr rfl) (inFlight_erase_self hm))

/-! ## Events at the server -/

/-- An event at the server. -/
theorem of_server (h : LockInv s) (hclients : s'.clients = s.clients)
    (hserved : ∀ c l, Served (s.server.info l) (s.share c l) (s'.share c l))
    (hsenders : ∀ l id, Msg.release l id ∈ s'.msgs → Msg.release l id ∈ s.msgs) : LockInv s' where
  clients := hclients ▸ h.clients
  sound c l := by
    rw [hclients]
    exact Sound.served (v := s.share c l) (h.sound c l) (hserved c l)
  senders l id hm := h.senders l id (hsenders l id hm)

/-- An `acquire` arrives at the server. -/
theorem serverAcquire (h : LockInv s) {xid : ℕ}
    (hstep : s.next (.serverAcquire lid id xid) = some s') : LockInv s' := by
  simp only [LockState.next] at hstep
  split_ifs at hstep with hm
  cases hstep
  refine h.of_server rfl (served_acquire hm) fun l i hmem => ?_
  exact List.mem_of_mem_erase (List.mem_of_ne_of_mem Msg.noConfusion hmem)

/-- The client that gives a lock back is its holder. -/
theorem holder_of_release (h : LockInv s) (hm : Msg.release lid (clientId c) ∈ s.msgs) :
    (s.server.info lid).holder = clientId c := by
  have hgrants := (h.sound c lid).grants
  have hpos := inFlight_pos hm
  by_contra hne
  rw [decide_eq_false hne, Bool.toNat_false] at hgrants
  dsimp only [Msg.id, Msg.lid, Msg.kind] at hpos
  omega

/-- A `release` arrives at the server. -/
theorem serverRelease (h : LockInv s) (hstep : s.next (.serverRelease lid id) = some s') :
    LockInv s' := by
  simp only [LockState.next] at hstep
  split_ifs at hstep with hm
  obtain ⟨⟨server, next⟩, hrelease, hs'⟩ := Option.map_eq_some_iff.mp hstep
  obtain ⟨c₀, rfl⟩ := h.senders lid id hm
  have hserved := served_release hm (h.holder_of_release hm) hrelease
  cases next with
  | none =>
    subst hs'
    exact h.of_server rfl hserved fun _ _ => List.mem_of_mem_erase
  | some next =>
    subst hs'
    refine h.of_server rfl hserved fun l i hmem => ?_
    exact List.mem_of_mem_erase (List.mem_of_ne_of_mem Msg.noConfusion hmem)

/-- A pass of the enforcer. -/
theorem enforcer (h : LockInv s) : LockInv { s with server := s.server.enforcer } :=
  h.of_server rfl (served_enforcer s) fun _ _ => id

/-- The revoker sends a request. -/
theorem revoker (h : LockInv s) (hstep : s.next .revoker = some s') : LockInv s' := by
  obtain ⟨⟨request, server⟩, hrevoker, rfl⟩ := Option.map_eq_some_iff.mp hstep
  exact h.of_server rfl (served_revoker hrevoker) fun _ _ => List.mem_of_ne_of_mem Msg.noConfusion

/-- A message is lost. -/
theorem lose (h : LockInv s) (m : Msg) : LockInv (s.take m) :=
  ⟨h.clients, fun c l => (h.sound c l).mono (inFlight_erase_le m s.msgs _ _),
    fun l i hmem => h.senders l i (List.mem_of_mem_erase hmem)⟩

/-- The invariant holds at the start. -/
protected theorem start : LockInv .start where
  clients _ := .start
  sound c lid := by
    have hflags : Client.start.flags lid = ⟨false, false, false, 0⟩ := by
      refine Flags.ext rfl rfl rfl ?_
      show countAt (Pc.Flushes lid) (fun _ => Pc.idle) + 0 = 0
      exact countAt_eq_zero fun _ => Pc.noConfusion
    have hinfo : LockState.start.server.info lid = ⟨LockServer.FREE, false, []⟩ :=
      Std.TreeMap.getD_emptyc
    show Sound (Client.start.flags lid) (fun _ => 0)
      (decide ((LockState.start.server.info lid).holder = clientId c))
      (LockState.start.server.info lid).revoked
      ((LockState.start.server.info lid).queue.count (clientId c)) 0
    rw [hflags, hinfo, decide_eq_false (Ne.symm (clientId_ne_free c))]
    constructor <;> simp
  senders := nofun

/-- Every event keeps the invariant. -/
theorem next (h : LockInv s) {e : LockEvent} (hstep : s.next e = some s') : LockInv s' := by
  cases e with
  | acquire c t lid =>
    obtain ⟨cl, hacquire, rfl⟩ := Option.map_eq_some_iff.mp hstep
    obtain ⟨hcl, hflags⟩ := Client.acquire_spec (h.clients c) hacquire
    exact h.sameFlags hcl hflags
  | run c t => exact h.run hstep
  | reply c t status => exact h.reply hstep
  | callFails c t => exact h.callFails hstep
  | wakes c t =>
    obtain ⟨cl, hwakes, rfl⟩ := Option.map_eq_some_iff.mp hstep
    obtain ⟨hcl, hflags⟩ := Client.wakes_spec (h.clients c) hwakes
    exact h.sameFlags hcl hflags
  | release c t lid => exact h.release hstep
  | released c t =>
    obtain ⟨⟨cl, m⟩, hreleased, rfl⟩ := Option.map_eq_some_iff.mp hstep
    obtain ⟨hcl, lid, -, hm, hflushes, hflags⟩ := Client.released_spec (h.clients c) hreleased
    exact h.sendsBack hcl hm hflushes hflags
  | releaseReturns c t =>
    obtain ⟨cl, hreturns, rfl⟩ := Option.map_eq_some_iff.mp hstep
    obtain ⟨hcl, hflags⟩ := Client.releaseReturns_spec (h.clients c) hreturns
    exact h.sameFlags hcl hflags
  | revoke c lid => exact h.revoke hstep
  | revokeReleased c =>
    obtain ⟨⟨cl, m⟩, hreleased, rfl⟩ := Option.map_eq_some_iff.mp hstep
    obtain ⟨hcl, lid, -, hm, hflushes, hflags⟩ := Client.revokeReleased_spec (h.clients c) hreleased
    exact h.sendsBack hcl hm hflushes hflags
  | retry c lid => exact h.retry hstep
  | serverAcquire lid id xid => exact h.serverAcquire hstep
  | serverRelease lid id => exact h.serverRelease hstep
  | enforcer =>
    cases hstep
    exact h.enforcer
  | revoker => exact h.revoker hstep
  | lose m =>
    obtain ⟨-, ⟨⟩⟩ := Option.ite_none_right_eq_some.mp hstep
    exact h.lose m

end LockInv

/-- The invariant holds in every reachable state. -/
theorem lockInv_of_reachable {s : LockState} (h : lockSystem.Reachable System.anything s) :
    LockInv s := by
  refine h.invariant (I := LockInv) ?_ fun _ _ _ hinv _ hstep => hinv.next hstep
  rintro s rfl
  exact .start

namespace LockInv

variable {s : LockState} {c t : ℕ} {lid : LockId}

/-- A client owns the locks that its threads hold. -/
theorem owned_of_holds (h : LockInv s) (hholds : Holds s c t lid) :
    ((s.clients c).flags lid).owned = true := by
  refine (h.clients c).owned lid ?_
  rw [((h.clients c).held t lid).mp hholds]
  exact Nat.succ_ne_zero t

/-- A client that owns a lock, or has not sent it back yet, is the one that the server has for the
holder. -/
theorem holder_eq (h : LockInv s) (hhas : ((s.clients c).flags lid).owned = true ∨
    0 < ((s.clients c).flags lid).flushes) : (s.server.info lid).holder = clientId c := by
  have hgrants := (h.sound c lid).grants
  by_contra hne
  rw [decide_eq_false hne, Bool.toNat_false] at hgrants
  rcases hhas with howned | hflushes
  · rw [howned, Bool.toNat_true] at hgrants
    omega
  · omega

/-- Two threads that hold the same lock are the same thread of the same client. -/
theorem holds_unique (h : LockInv s) {c' t' : ℕ} (hholds : Holds s c t lid)
    (hholds' : Holds s c' t' lid) : c = c' ∧ t = t' := by
  -- The server has one holder, so the threads are at the same client.
  have hholder := h.holder_eq (Or.inl (h.owned_of_holds hholds))
  have hholder' := h.holder_eq (Or.inl (h.owned_of_holds hholds'))
  have hc : c = c' := clientId_inj.mp (hholder.symm.trans hholder')
  subst hc
  -- The client has one record for the lock, with one holder.
  have hself := ((h.clients c).held t lid).mp hholds
  have hself' := ((h.clients c).held t' lid).mp hholds'
  exact ⟨rfl, Nat.succ.inj (hself.symm.trans hself')⟩

end LockInv

/-- Two threads that hold the same lock are the same thread of the same client: at most one thread
is between the return of `acquire` and its `release`. -/
theorem mutual_exclusion {s : LockState} (h : lockSystem.Reachable System.anything s) {lid : LockId}
    {c t c' t' : ℕ} (hholds : Holds s c t lid) (hholds' : Holds s c' t' lid) : c = c' ∧ t = t' :=
  (lockInv_of_reachable h).holds_unique hholds hholds'

/-- Client 1 gets lock 7, client 2 asks for it and has to wait, and client 1 gives it back when it
is told to. Before the thread of client 2 has noticed that it has the lock, another thread of client
1 asks for it again. -/
def handedOver : List LockEvent :=
  [.acquire 1 0 7, .run 1 0, .run 1 0, .serverAcquire 7 (clientId 1) 0, .reply 1 0 .OK, .run 1 0,
   .acquire 2 0 7, .run 2 0, .run 2 0, .serverAcquire 7 (clientId 2) 0, .enforcer, .revoker,
   .revoke 1 7, .release 1 0 7, .acquire 1 1 7, .run 1 1, .run 1 1, .released 1 0,
   .serverRelease 7 (clientId 1), .retry 2 7, .reply 2 0 .RETRY, .run 2 0,
   .serverAcquire 7 (clientId 1) 1]

/-- After lock 7 was handed over, thread 0 of client 2 is the only one that holds it. -/
theorem mutual_exclusion_handed_over :
    ∃ s, lockSystem.exec .start handedOver = some s ∧ Holds s 2 0 7 ∧
      ∀ c t, Holds s c t 7 → c = 2 ∧ t = 0 := by
  have hrun : (lockSystem.exec .start handedOver).map (fun s => (s.clients 2).held 0) =
      some [7] := by decide
  obtain ⟨s, hexec, hheld⟩ := Option.map_eq_some_iff.mp hrun
  have hholds : Holds s 2 0 7 := by
    unfold Holds
    rw [hheld]
    exact List.mem_singleton.mpr rfl
  have hreachable := System.Reachable.of_exec hexec rfl
  exact ⟨s, hexec, hholds, fun c t hct => mutual_exclusion hreachable hct hholds⟩

end SimpleDfs.Lock
