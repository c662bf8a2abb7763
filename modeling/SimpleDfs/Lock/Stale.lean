import SimpleDfs.Lock.Fifo
import SimpleDfs.Lock.MutualExclusion

/-!
# Stale messages

Messages of the lock protocol that come when they should not: a `revoke` to a client that neither
owns the lock nor has asked for it, and a `release` from a client that is not the holder. The code
takes both for what they say. A client without a record of the lock notes that it owns it, one with
a record sends a `release`, and the server gives the lock to the next client, whoever sent the
`release` (`stale_messages_harm`).

`stale_messages_iff` says when such a message does no harm in a reachable state: a `revoke`, when a
thread of the client is in `acquire` for the lock; a `release`, when the server knows the lock and
nobody holds it.
-/

namespace SimpleDfs.Lock

/-- The client neither owns the lock nor waits for a grant of it. -/
def Client.Idle (cl : Client) (lid : LockId) : Prop :=
  (cl.info lid).owned = false ∧ (cl.info lid).acquiring = false

/-- A `revoke` to the client did no harm: no `release` is sent, and the client does not own the
lock. -/
def Client.Unharmed (cl : Client) (lid : LockId) : Prop :=
  cl.handler = none ∧ (cl.info lid).owned = false

/-- A `release` leaves what the server knows of the lock as it is, and does not stop the server. -/
def LockServer.ReleaseHarmless (server : LockServer) (lid : LockId) (id : String) : Prop :=
  ∃ server' next, server.release lid id = some (server', next) ∧
    server'.info lid = server.info lid

/-! ## The server in the protocol -/

section Server

variable {s s' : LockState} {e : LockEvent}

/-- What an event does to the server. -/
theorem server_next (hstep : s.next e = some s') : s'.server = s.server ∨
    (∃ lid id xid, Msg.acquire lid id xid ∈ s.msgs ∧ s'.server = (s.server.acquire lid id).2) ∨
    (∃ lid id next, Msg.release lid id ∈ s.msgs ∧
      s.server.release lid id = some (s'.server, next)) ∨
    s'.server = s.server.enforcer ∨ ∃ request, s.server.revoker = some (request, s'.server) := by
  cases e with
  | acquire c t lid | callFails c t | wakes c t | release c t lid | releaseReturns c t =>
    obtain ⟨cl, -, rfl⟩ := Option.map_eq_some_iff.mp hstep
    exact Or.inl rfl
  | run c t | released c t | revokeReleased c =>
    obtain ⟨got, -, rfl⟩ := Option.map_eq_some_iff.mp hstep
    exact Or.inl rfl
  | reply c t status =>
    simp only [LockState.next] at hstep
    split at hstep
    · split_ifs at hstep
      obtain ⟨cl, -, rfl⟩ := Option.map_eq_some_iff.mp hstep
      exact Or.inl rfl
    · cases hstep
  | revoke c lid | retry c lid =>
    simp only [LockState.next] at hstep
    split_ifs at hstep
    obtain ⟨cl, -, rfl⟩ := Option.map_eq_some_iff.mp hstep
    exact Or.inl rfl
  | serverAcquire lid id xid =>
    obtain ⟨hm, ⟨⟩⟩ := Option.ite_none_right_eq_some.mp hstep
    exact Or.inr (Or.inl ⟨lid, id, xid, hm, rfl⟩)
  | serverRelease lid id =>
    simp only [LockState.next] at hstep
    split_ifs at hstep with hm
    obtain ⟨⟨server, next⟩, hrelease, rfl⟩ := Option.map_eq_some_iff.mp hstep
    refine Or.inr (Or.inr (Or.inl ⟨lid, id, next, hm, ?_⟩))
    cases next <;> exact hrelease
  | enforcer =>
    cases hstep
    exact Or.inr (Or.inr (Or.inr (Or.inl rfl)))
  | revoker =>
    obtain ⟨⟨request, server⟩, hrevoker, rfl⟩ := Option.map_eq_some_iff.mp hstep
    exact Or.inr (Or.inr (Or.inr (Or.inr ⟨request, hrevoker⟩)))
  | lose m =>
    obtain ⟨-, ⟨⟩⟩ := Option.ite_none_right_eq_some.mp hstep
    exact Or.inl rfl

/-- Only clients ask for locks. -/
theorem LockInv.acquire_mem_next (h : LockInv s) (hstep : s.next e = some s') {lid : LockId}
    {id : String} {xid : ℕ} (hm : Msg.acquire lid id xid ∈ s'.msgs) :
    Msg.acquire lid id xid ∈ s.msgs ∨ ∃ c, id = clientId c := by
  cases e with
  | acquire c t l | callFails c t | wakes c t | release c t l | releaseReturns c t =>
    obtain ⟨cl, -, rfl⟩ := Option.map_eq_some_iff.mp hstep
    exact Or.inl hm
  | run c t =>
    obtain ⟨⟨cl, out⟩, hrun, rfl⟩ := Option.map_eq_some_iff.mp hstep
    rcases List.mem_append.mp hm with hout | hold
    · rcases (Client.run_spec (h.clients c) hrun).2 with ⟨rfl, -⟩ | ⟨l, rfl, -⟩
      · cases hout
      · cases List.mem_singleton.mp hout
        exact Or.inr ⟨c, rfl⟩
    · exact Or.inl hold
  | released c t =>
    obtain ⟨⟨cl, m⟩, hcl, rfl⟩ := Option.map_eq_some_iff.mp hstep
    obtain ⟨-, l, -, rfl, -⟩ := Client.released_spec (h.clients c) hcl
    exact Or.inl ((List.mem_cons.mp hm).resolve_left Msg.noConfusion)
  | revokeReleased c =>
    obtain ⟨⟨cl, m⟩, hcl, rfl⟩ := Option.map_eq_some_iff.mp hstep
    obtain ⟨-, l, -, rfl, -⟩ := Client.revokeReleased_spec (h.clients c) hcl
    exact Or.inl ((List.mem_cons.mp hm).resolve_left Msg.noConfusion)
  | reply c t status =>
    simp only [LockState.next] at hstep
    split at hstep
    · split_ifs at hstep
      obtain ⟨cl, -, rfl⟩ := Option.map_eq_some_iff.mp hstep
      exact Or.inl (List.mem_of_mem_erase hm)
    · cases hstep
  | revoke c l | retry c l =>
    simp only [LockState.next] at hstep
    split_ifs at hstep
    obtain ⟨cl, -, rfl⟩ := Option.map_eq_some_iff.mp hstep
    exact Or.inl (List.mem_of_mem_erase hm)
  | serverAcquire l i x =>
    obtain ⟨-, ⟨⟩⟩ := Option.ite_none_right_eq_some.mp hstep
    exact Or.inl (List.mem_of_mem_erase ((List.mem_cons.mp hm).resolve_left Msg.noConfusion))
  | serverRelease l i =>
    simp only [LockState.next] at hstep
    split_ifs at hstep
    obtain ⟨⟨server, next⟩, -, rfl⟩ := Option.map_eq_some_iff.mp hstep
    cases next with
    | none => exact Or.inl (List.mem_of_mem_erase hm)
    | some holder =>
      exact Or.inl (List.mem_of_mem_erase ((List.mem_cons.mp hm).resolve_left Msg.noConfusion))
  | enforcer =>
    cases hstep
    exact Or.inl hm
  | revoker =>
    obtain ⟨⟨request, server⟩, -, rfl⟩ := Option.map_eq_some_iff.mp hstep
    exact Or.inl ((List.mem_cons.mp hm).resolve_left Msg.noConfusion)
  | lose m =>
    obtain ⟨-, ⟨⟩⟩ := Option.ite_none_right_eq_some.mp hstep
    exact Or.inl (List.mem_of_mem_erase hm)

/-- In the protocol only the holder of a lock gives it back, so that the server does nothing else
than it does alone. -/
theorem LockInv.serverInv_next (h : LockInv s)
    (hasks : ∀ lid id xid, Msg.acquire lid id xid ∈ s.msgs → ∃ c, id = clientId c)
    (hserver : ∃ deeds, ServerInv ⟨s.server, deeds⟩) (hstep : s.next e = some s') :
    ∃ deeds, ServerInv ⟨s'.server, deeds⟩ := by
  obtain ⟨deeds, hinv⟩ := hserver
  rcases server_next hstep with hsame | ⟨lid, id, xid, hm, hacquire⟩ |
    ⟨lid, id, next, hm, hrelease⟩ |
    henforcer | ⟨request, hrevoker⟩
  · rw [hsame]
    exact ⟨deeds, hinv⟩
  · obtain ⟨c, rfl⟩ := hasks lid id xid hm
    have hnext : (⟨s.server, deeds⟩ : ServerState).next (.acquire c lid) = some _ := rfl
    rw [hacquire]
    exact ⟨_, hinv.acquire hnext⟩
  · obtain ⟨c, rfl⟩ := h.senders lid id hm
    have hholder := h.holder_of_release hm
    have hnext : (⟨s.server, deeds⟩ : ServerState).next (.release c lid) =
        some (ServerState.record ⟨s.server, deeds⟩ s'.server lid
          (.released (clientId c) :: (next.map Deed.retried).toList)) := by
      simp only [ServerState.next, if_pos hholder, hrelease]
      rfl
    exact ⟨_, hinv.release hnext⟩
  · rw [henforcer]
    exact ⟨_, hinv.enforcer rfl⟩
  · have hnext : (⟨s.server, deeds⟩ : ServerState).next .revoker = some ⟨s'.server, deeds⟩ := by
      simp only [ServerState.next, hrevoker]
      rfl
    exact ⟨deeds, hinv.next hnext⟩

end Server

/-- In every reachable state the server is as if it had been called by the holders alone. -/
theorem serverInv_of_reachable {s : LockState} (h : lockSystem.Reachable System.anything s) :
    ∃ deeds, ServerInv ⟨s.server, deeds⟩ := by
  let I : LockState → Prop := fun s => LockInv s ∧
    (∀ lid id xid, Msg.acquire lid id xid ∈ s.msgs → ∃ c, id = clientId c) ∧
    ∃ deeds, ServerInv ⟨s.server, deeds⟩
  have hI : I s := by
    refine h.invariant (I := I) (fun s hinit => ?_) fun s e s' hs _ hstep => ?_
    · obtain rfl : s = .start := hinit
      exact ⟨lockInv_of_reachable (System.Reachable.of_init rfl), nofun, fun _ => [],
        fun _ => Tells.start⟩
    · obtain ⟨hinv, hasks, hserver⟩ := hs
      refine ⟨hinv.next hstep, fun lid id xid hm => ?_, hinv.serverInv_next hasks hserver hstep⟩
      rcases hinv.acquire_mem_next hstep hm with hold | hnew
      · exact hasks lid id xid hold
      · exact hnew
  exact hI.2.2

/-! ## The result -/

/-- What a `revoke` does at a client that neither owns the lock nor has asked for it. -/
theorem ClientInv.unharmed_iff {cl cl' : Client} (h : ClientInv cl) {lid : LockId}
    (hidle : cl.Idle lid) (hstep : cl.revokeHandler lid = some cl') :
    cl'.Unharmed lid ↔ 0 < (cl.info lid).awaiting_lock := by
  unfold Client.revokeHandler at hstep
  split_ifs at hstep with hhandler
  cases hlock : cl.lock_list lid with
  | none =>
    -- The client notes that it owns the lock.
    simp only [hlock, Option.some.injEq] at hstep
    subst hstep
    have hinfo : cl.info lid = .new := by rw [Client.info, hlock, Option.getD_none]
    rw [Client.Unharmed, Client.info_setLock, if_pos rfl, hinfo]
    simp [LockInfo.new]
  | some lock =>
    have hinfo := Client.info_eq hlock
    obtain ⟨howned, hacquiring⟩ := hidle
    have hfree : lock.holder = LockInfo.FREE := by
      by_contra hheld
      rw [h.owned lid (by rw [hinfo]; exact hheld)] at howned
      cases howned
    rw [hinfo] at howned hacquiring ⊢
    simp only [hlock] at hstep
    split_ifs at hstep with hgive
    · -- The client gives the lock back, which it does not have.
      obtain rfl := Option.some.inj hstep
      simp [Client.Unharmed, hgive.2.1]
    · obtain rfl := Option.some.inj hstep
      have hwaits : lock.awaiting_lock ≠ 0 := fun hzero => hgive ⟨hfree, hzero, hacquiring⟩
      have hunharmed : (cl.setLock lid { lock with revoked := true }).Unharmed lid := by
        refine ⟨hhandler, ?_⟩
        rw [Client.info_setLock, if_pos rfl]
        exact howned
      exact iff_of_true hunharmed (Nat.pos_of_ne_zero hwaits)

/-- What a `release` from a client that is not the holder does. -/
theorem Tells.releaseHarmless_iff {server : LockServer} {lid : LockId} {ds : List Deed}
    (h : Tells (server.info lid) ds) (id : String) :
    server.ReleaseHarmless lid id ↔
      lid ∈ server.lock_list ∧ (server.info lid).holder = LockServer.FREE := by
  constructor
  · rintro ⟨server', next, hrelease, hsame⟩
    refine ⟨LockServer.mem_of_release hrelease, ?_⟩
    obtain ⟨hinfo, hnext, -⟩ := LockServer.info_release hrelease lid
    rw [if_pos rfl, hsame] at hinfo
    cases hqueue : (server.info lid).queue with
    | nil =>
      rw [hinfo, hnext, hqueue]
      rfl
    | cons holder queue =>
      -- The first client of the queue got the lock, so the queue is shorter.
      have hshorter := congrArg (fun lock => lock.queue.length) hinfo
      simp [hqueue] at hshorter
  · rintro ⟨hmem, hfree⟩
    obtain ⟨⟨server', next⟩, hrelease⟩ := LockServer.exists_release hmem id
    obtain ⟨hqueue, hrevoked⟩ := h.free hfree
    obtain ⟨hinfo, hnext, -⟩ := LockServer.info_release hrelease lid
    refine ⟨server', next, hrelease, ?_⟩
    rw [hinfo, if_pos rfl, hnext, hqueue]
    cases hlock : server.info lid with
    | mk holder revoked queue =>
      rw [hlock] at hfree hqueue hrevoked
      dsimp only at hfree hqueue hrevoked
      rw [hfree, hqueue, hrevoked]
      rfl

/-- In a reachable state, a `revoke` to a client that neither owns the lock nor waits for a grant of
it does no harm exactly when a thread of the client is in `acquire` for the lock, and a `release`
from a client that is not the holder does none exactly when the lock has a record and is free. -/
theorem stale_messages_iff {s : LockState} (h : lockSystem.Reachable System.anything s) :
    (∀ c lid cl', (s.clients c).Idle lid → (s.clients c).revokeHandler lid = some cl' →
      (cl'.Unharmed lid ↔ 0 < ((s.clients c).info lid).awaiting_lock)) ∧
    ∀ lid id, (s.server.info lid).holder ≠ id →
      (s.server.ReleaseHarmless lid id ↔
        lid ∈ s.server.lock_list ∧ (s.server.info lid).holder = LockServer.FREE) := by
  obtain ⟨deeds, hserver⟩ := serverInv_of_reachable h
  refine ⟨fun c lid cl' hidle hstep => ?_, fun lid id _ => (hserver lid).releaseHarmless_iff id⟩
  exact ((lockInv_of_reachable h).clients c).unharmed_iff hidle hstep

/-- Client 1 gets lock 7 and gives it back to client 2, which has asked for it. -/
def givenBack : List LockEvent :=
  [.acquire 1 0 7, .run 1 0, .run 1 0, .serverAcquire 7 (clientId 1) 0, .reply 1 0 .OK, .run 1 0,
   .acquire 2 0 7, .run 2 0, .run 2 0, .serverAcquire 7 (clientId 2) 0, .enforcer, .revoker,
   .revoke 1 7, .release 1 0 7, .released 1 0, .serverRelease 7 (clientId 1), .retry 2 7]

/-- Client 1 has given lock 7 back. A second `revoke` makes it send another `release`, and a
`revoke` makes client 3, which never asked for the lock, its owner. The second `release` of client 1
takes the lock from client 2. -/
theorem stale_messages_harm : ∃ s, lockSystem.exec .start givenBack = some s ∧
    ((s.clients 1).Idle 7 ∧ ∃ cl', (s.clients 1).revokeHandler 7 = some cl' ∧
      cl'.revokeReleased (clientId 1) = some ({ cl' with handler := none },
        .release 7 (clientId 1))) ∧
    ((s.clients 3).Idle 7 ∧ ∃ cl', (s.clients 3).revokeHandler 7 = some cl' ∧
      (cl'.info 7).owned = true) ∧
    (s.server.info 7).holder = clientId 2 ∧
    ∃ server', s.server.release 7 (clientId 1) = some (server', none) ∧
      (server'.info 7).holder = LockServer.FREE := by
  have hrun : (lockSystem.exec .start givenBack).map (fun s =>
      ((s.clients 1).info 7, (s.clients 3).info 7, s.server.info 7)) =
      some (.new, .new, ⟨clientId 2, false, []⟩) := by
    decide
  have hrevokes : (lockSystem.exec .start givenBack).map (fun s =>
      (((s.clients 1).revokeHandler 7).map Client.handler,
      ((s.clients 3).revokeHandler 7).map (fun cl => (cl.info 7).owned))) =
      some (some (some 7), some true) := by
    decide
  have hreleases : (lockSystem.exec .start givenBack).map (fun s =>
      (s.server.release 7 (clientId 1)).map fun got => (got.2, (got.1.info 7).holder)) =
      some (some (none, LockServer.FREE)) := by
    decide
  obtain ⟨s, hexec, hinfo⟩ := Option.map_eq_some_iff.mp hrun
  rw [hexec] at hrevokes hreleases
  simp only [Prod.mk.injEq] at hinfo
  simp only [Option.map_some, Option.some.injEq, Prod.mk.injEq,
    Option.map_eq_some_iff] at hrevokes hreleases
  obtain ⟨hfirst, hthird, hholder⟩ := hinfo
  obtain ⟨⟨cl₁, hrevoke, hhandler⟩, cl₃, hrevoke', howned⟩ := hrevokes
  obtain ⟨⟨server', next⟩, hrelease, rfl, hfree⟩ := hreleases
  refine ⟨s, hexec, ⟨?_, cl₁, hrevoke, ?_⟩, ⟨?_, cl₃, hrevoke', howned⟩, ?_, server', hrelease,
    hfree⟩
  · rw [Client.Idle, hfirst]
    exact ⟨rfl, rfl⟩
  · rw [Client.revokeReleased, hhandler]
    rfl
  · rw [Client.Idle, hthird]
    exact ⟨rfl, rfl⟩
  · rw [hholder]

/-- A thread of client 1 has entered `acquire` for lock 7 and has not asked for it yet, so a
`revoke` does no harm; the lock is not free, and a `release` takes it from client 2. -/
theorem stale_messages_iff_given_back :
    ∃ s, lockSystem.exec .start (givenBack ++ [.acquire 1 1 7, .run 1 1]) = some s ∧
      0 < ((s.clients 1).info 7).awaiting_lock ∧
      (∃ cl', (s.clients 1).revokeHandler 7 = some cl' ∧ cl'.Unharmed 7) ∧
      ¬ s.server.ReleaseHarmless 7 (clientId 1) := by
  have hrun : (lockSystem.exec .start (givenBack ++ [.acquire 1 1 7, .run 1 1])).map (fun s =>
      ((s.clients 1).info 7, s.server.info 7, ((s.clients 1).revokeHandler 7).isSome)) =
      some (LockInfo.new.await, ⟨clientId 2, false, []⟩, true) := by
    decide
  obtain ⟨s, hexec, hval⟩ := Option.map_eq_some_iff.mp hrun
  simp only [Prod.mk.injEq] at hval
  obtain ⟨hinfo, hholder, hsome⟩ := hval
  have hreachable := System.Reachable.of_exec hexec rfl
  have hiff := stale_messages_iff hreachable
  obtain ⟨cl', hrevoke⟩ := Option.isSome_iff_exists.mp hsome
  have hwaits : 0 < ((s.clients 1).info 7).awaiting_lock := by
    rw [hinfo]
    decide
  refine ⟨s, hexec, hwaits, ⟨cl', hrevoke, ?_⟩, ?_⟩
  · refine (hiff.1 1 7 cl' ?_ hrevoke).mpr hwaits
    rw [Client.Idle, hinfo]
    exact ⟨rfl, rfl⟩
  · rw [hiff.2 7 (clientId 1) (by rw [hholder]; decide), hholder]
    exact fun hfree => absurd hfree.2 (by decide)

end SimpleDfs.Lock
