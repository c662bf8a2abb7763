import SimpleDfs.Lock.Custody

/-!
# Locks that a client has not asked for

A client learns of a lock only when one of its threads calls `acquire` for it. Until then it has no
record of the lock, does not have it in its custody, and no other event changes that
(`LockInv.untouched_next`): the server sends a `revoke` or a `retry` only to a client that asked.
-/

namespace SimpleDfs.Lock

/-- The client has no record of the lock, and does not give it back. -/
structure Client.Untouched (cl : Client) (lid : LockId) : Prop where
  /-- There is no record. -/
  record : cl.lock_list lid = none
  /-- No thread and no handler is in `dorelease`. -/
  flushes : (cl.flags lid).flushes = 0

namespace Client

variable {cl cl' : Client} {t : ℕ} {lid l : LockId}

/-! ## Records -/

/-- A change of a record makes no other one. -/
theorem lock_list_setLock {lock : LockInfo} (h : cl.lock_list lid = some lock) (lock' : LockInfo)
    (hl : cl.lock_list l = none) : (cl.setLock lid lock').lock_list l = none := by
  have hne : l ≠ lid := by
    rintro rfl
    cases h.symm.trans hl
  exact (Function.update_of_ne hne _ _).trans hl

/-- A thread goes on with a lock that the client owns. -/
theorem lock_list_awaitFree {lock : LockInfo} (h : cl.lock_list lid = some lock) (lock' : LockInfo)
    (hl : cl.lock_list l = none) : (cl.awaitFree t lid lock').lock_list l = none := by
  unfold awaitFree
  split_ifs
  · exact lock_list_setLock h _ hl
  · exact hl

/-- A thread goes on with a lock that the client owns or has asked for. -/
theorem lock_list_awaitOwned {lock : LockInfo} (h : cl.lock_list lid = some lock) (lock' : LockInfo)
    (hl : cl.lock_list l = none) : (cl.awaitOwned t lid lock').lock_list l = none := by
  unfold awaitOwned
  split_ifs
  · exact hl
  · exact lock_list_awaitFree h lock' hl

/-- A step of a thread in `acquire` makes no record. -/
theorem lock_list_run {id : String} {out : List Msg} (hstep : cl.run id t = some (cl', out))
    (hl : cl.lock_list l = none) : cl'.lock_list l = none := by
  unfold run at hstep
  split_ifs at hstep
  split at hstep
  next lid _ =>
    obtain ⟨lock, hlock, hstep⟩ := Option.bind_eq_some_iff.mp hstep
    have hset := lock_list_setLock hlock lock.await hl
    have hself : (cl.setLock lid lock.await).lock_list lid = some lock.await :=
      Function.update_self _ _ _
    dsimp only at hstep
    split_ifs at hstep
    · cases hstep
      exact hset
    · cases hstep
      exact lock_list_awaitOwned hself _ hset
  next lid _ =>
    obtain ⟨lock, hlock, hstep⟩ := Option.bind_eq_some_iff.mp hstep
    dsimp only at hstep
    split_ifs at hstep
    · cases hstep
      exact lock_list_setLock hlock _ hl
    · cases hstep
      exact hl
  next lid _ =>
    obtain ⟨lock, hlock, hstep⟩ := Option.bind_eq_some_iff.mp hstep
    cases hstep
    exact lock_list_awaitOwned hlock _ hl
  next lid _ =>
    obtain ⟨lock, hlock, hstep⟩ := Option.bind_eq_some_iff.mp hstep
    cases hstep
    exact lock_list_awaitOwned hlock _ hl
  next lid _ =>
    obtain ⟨lock, hlock, hstep⟩ := Option.bind_eq_some_iff.mp hstep
    cases hstep
    exact lock_list_awaitFree hlock _ hl
  next => cases hstep

/-- A call that returns makes no record. -/
theorem lock_list_acquireReturns {ok : Bool} (hstep : cl.acquireReturns t ok = some cl')
    (hl : cl.lock_list l = none) : cl'.lock_list l = none := by
  unfold acquireReturns at hstep
  split at hstep
  next lid _ _ =>
    obtain ⟨-, hstep⟩ := Option.ite_none_right_eq_some.mp hstep
    obtain ⟨lock, hlock, hstep⟩ := Option.bind_eq_some_iff.mp hstep
    split_ifs at hstep
    · cases hstep
      exact hl
    · cases hstep
      exact lock_list_setLock hlock _ hl
    · cases hstep
      exact lock_list_setLock hlock _ hl
  next => cases hstep

/-- `release` makes no record. -/
theorem lock_list_release (hstep : cl.release t lid = some cl') (hl : cl.lock_list l = none) :
    cl'.lock_list l = none := by
  unfold release at hstep
  obtain ⟨-, hstep⟩ := Option.ite_none_right_eq_some.mp hstep
  obtain ⟨lock, hlock, hstep⟩ := Option.bind_eq_some_iff.mp hstep
  have hleaves : (cl.leaves t lid).lock_list lid = some lock := hlock
  have hset : ∀ lock', ((cl.leaves t lid).setLock lid lock').lock_list l = none :=
    fun lock' => lock_list_setLock hleaves lock' hl
  dsimp only at hstep
  split_ifs at hstep
  all_goals
    cases hstep
    exact hset _

/-- A `retry` makes no record. -/
theorem lock_list_retryHandler (hstep : cl.retryHandler lid = some cl')
    (hl : cl.lock_list l = none) : cl'.lock_list l = none := by
  unfold retryHandler at hstep
  obtain ⟨-, hstep⟩ := Option.ite_none_right_eq_some.mp hstep
  obtain ⟨lock, hlock, hstep⟩ := Option.bind_eq_some_iff.mp hstep
  cases hstep
  exact lock_list_setLock hlock _ hl

end Client

/-! ## Events -/

variable {s s' : LockState} {e : LockEvent} {c t : ℕ} {lid : LockId}

/-- Without a record the client does not own the lock and is not acquiring it. -/
theorem Client.Untouched.idle {cl : Client} (h : cl.Untouched lid) :
    (cl.flags lid).owned = false ∧ (cl.flags lid).acquiring = false := by
  have hinfo : cl.info lid = .new := by rw [Client.info, h.record, Option.getD_none]
  show (cl.info lid).owned = false ∧ (cl.info lid).acquiring = false
  rw [hinfo]
  exact ⟨rfl, rfl⟩

/-- A client that has not asked for the lock does not have it in its custody. -/
theorem Client.Untouched.not_custody (h : (s.clients c).Untouched lid) : ¬ Custody s c lid := by
  rintro (howned | hflushes)
  · cases h.idle.1.symm.trans howned
  · rw [h.flushes] at hflushes
    cases hflushes

namespace LockInv

/-- A step of a client keeps the locks that it has not asked for. -/
theorem untouched_of_step (h : LockInv s) {cl : Client} (hcl : ClientStep s c e cl)
    (hu : (s.clients c).Untouched lid) (hne : ∀ t, e ≠ .acquire c t lid) : cl.Untouched lid := by
  -- Most steps change no flag, or change the flags of a lock without a new call of `dorelease`.
  have hsame : ∀ {fl : LockId → Flags}, fl = (s.clients c).flags → (fl lid).flushes = 0 := by
    rintro fl rfl
    exact hu.flushes
  have hupdate : ∀ {fl : LockId → Flags} {l : LockId} {f : Flags},
      fl = Function.update (s.clients c).flags l f →
      (l = lid → f.flushes ≤ ((s.clients c).flags lid).flushes) → (fl lid).flushes = 0 := by
    rintro fl l f rfl hf
    by_cases hl : lid = l
    · subst hl
      rw [Function.update_self]
      exact Nat.le_zero.mp ((hf rfl).trans (le_of_eq hu.flushes))
    · rw [Function.update_of_ne hl]
      exact hu.flushes
  have hreturns : ∀ {t ok}, (s.clients c).acquireReturns t ok = some cl → cl.Untouched lid := by
    intro t ok hcl
    refine ⟨Client.lock_list_acquireReturns hcl hu.record, ?_⟩
    obtain ⟨-, l, xid, -, ⟨hflags, -⟩ | ⟨-, hflags⟩⟩ :=
      Client.acquireReturns_spec (h.clients c) hcl
    · exact hsame hflags
    · refine hupdate hflags ?_
      rintro rfl
      exact le_rfl
  cases hcl with
  | @acquire t l cl hcl =>
    have hl : lid ≠ l := by
      rintro rfl
      exact hne t rfl
    refine ⟨?_, hsame (Client.acquire_spec (h.clients c) hcl).2⟩
    unfold Client.acquire at hcl
    split_ifs at hcl
    split at hcl
    · cases hcl
      exact (Function.update_of_ne hl _ _).trans hu.record
    · cases hcl
      exact hu.record
  | run hcl =>
    refine ⟨Client.lock_list_run hcl hu.record, ?_⟩
    rcases (Client.run_spec (h.clients c) hcl).2 with ⟨-, hflags⟩ | ⟨l, -, -, -, hflags⟩
    · exact hsame hflags
    · refine hupdate hflags ?_
      rintro rfl
      exact le_rfl
  | reply hcl => exact hreturns hcl
  | callFails hcl => exact hreturns hcl
  | wakes hcl =>
    refine ⟨?_, hsame (Client.wakes_spec (h.clients c) hcl).2⟩
    unfold Client.wakes at hcl
    split at hcl <;> cases hcl <;> exact hu.record
  | @release t l cl hcl =>
    refine ⟨Client.lock_list_release hcl hu.record, ?_⟩
    obtain ⟨-, howned, hflags | ⟨-, hflags⟩⟩ := Client.release_spec (h.clients c) hcl
    · exact hsame hflags
    · refine hupdate hflags ?_
      rintro rfl
      -- The thread held a lock that the client owns.
      cases hu.idle.1.symm.trans howned
  | @released t cl m hcl =>
    obtain ⟨-, l, -, -, -, hflags⟩ := Client.released_spec (h.clients c) hcl
    refine ⟨?_, hupdate hflags ?_⟩
    · unfold Client.released at hcl
      split at hcl <;> cases hcl
      exact hu.record
    · rintro rfl
      exact Nat.sub_le _ _
  | releaseReturns hcl =>
    refine ⟨?_, hsame (Client.releaseReturns_spec (h.clients c) hcl).2⟩
    unfold Client.releaseReturns at hcl
    split at hcl <;> cases hcl
    exact hu.record
  | @revoke l cl hm hcl =>
    -- A `revoke` comes only to a client that has the lock or is acquiring it.
    have hknown := (h.sound c l).not_idle_of_revoke (inFlight_pos hm)
    have hl : lid ≠ l := by
      rintro rfl
      exact hknown hu.idle
    refine ⟨?_, ?_⟩
    · unfold Client.revokeHandler at hcl
      split_ifs at hcl
      split at hcl
      · cases hcl
        exact (Function.update_of_ne hl _ _).trans hu.record
      · split_ifs at hcl
        all_goals
          cases hcl
          exact (Function.update_of_ne hl _ _).trans hu.record
    · rcases (Client.revokeHandler_spec (h.clients c) hcl).2 with hidle | ⟨-, hflags⟩ | hflags
      · exact absurd hidle hknown
      · exact hupdate hflags fun heq => absurd heq.symm hl
      · exact hupdate hflags fun heq => absurd heq.symm hl
  | revokeReleased hcl =>
    obtain ⟨-, l, -, -, -, hflags⟩ := Client.revokeReleased_spec (h.clients c) hcl
    refine ⟨?_, hupdate hflags ?_⟩
    · obtain ⟨l', -, hcl⟩ := Option.map_eq_some_iff.mp hcl
      cases hcl
      exact hu.record
    · rintro rfl
      exact Nat.sub_le _ _
  | @retry l cl hcl =>
    refine ⟨Client.lock_list_retryHandler hcl hu.record, ?_⟩
    refine hupdate (Client.retryHandler_spec (h.clients c) hcl).2 ?_
    rintro rfl
    exact le_rfl

/-- Only a call of `acquire` makes a client know of a lock. -/
theorem untouched_next (h : LockInv s) (hstep : s.next e = some s')
    (hu : (s.clients c).Untouched lid) (hne : ∀ t, e ≠ .acquire c t lid) :
    (s'.clients c).Untouched lid := by
  rcases clients_next hstep with hsame | ⟨c', cl, hcl, hclients⟩
  · rw [hsame]
    exact hu
  · rw [hclients]
    by_cases hc : c = c'
    · subst hc
      rw [Function.update_self]
      exact h.untouched_of_step hcl hu hne
    · rw [Function.update_of_ne hc]
      exact hu

end LockInv

/-- A client that has just started has not asked for any lock. -/
theorem Client.untouched_start (lid : LockId) : Client.start.Untouched lid where
  record := rfl
  flushes := by
    show countAt (Pc.Flushes lid) (fun _ => Pc.idle) + 0 = 0
    exact countAt_eq_zero fun _ => Pc.noConfusion

end SimpleDfs.Lock
