import SimpleDfs.Base.Simulation
import SimpleDfs.Lock.Custody
import SimpleDfs.Lock.Table

/-!
# The caching lock service is a table of locks

The users of the caching lock service are the threads of its clients. Whatever the clients and the
server do between them, which clients own which locks, and which messages are in flight or get lost,
the threads see a single table of locks: `cached_refines_table`.

A thread returns from `acquire` in a step of its own, when the record of its client says that no
other thread has the lock. That no thread of another client has it either follows from mutual
exclusion in the state after the step.
-/

namespace SimpleDfs.Lock

/-- The lock that a thread in `acquire` is about. -/
def Pc.wanted : Pc → Option LockId
  | entered lid | acquireLock lid | awaitReply lid _ | back lid | waitOwned lid _
  | waitFree lid _ => some lid
  | idle | dorelease _ | releasing _ => none

/-- What the threads see of a step. A thread is given by its client and its number. -/
def observed (s : LockState) (e : LockEvent) (s' : LockState) : List (TableEvent (ℕ × ℕ) LockId) :=
  match e with
  | .run c t =>
    if (s'.clients c).pc t = .idle then
      ((s.clients c).pc t).wanted.toList.map (.acquired (c, t))
    else []
  | .release c t lid => [.released (c, t) lid]
  | _ => []

/-- The table has the threads that hold the locks. -/
def TableOf (s : LockState) (table : LockId → Option (ℕ × ℕ)) : Prop :=
  ∀ c t lid, Holds s c t lid ↔ table lid = some (c, t)

namespace Client

variable {c c' : Client} {t : ℕ} {lid : LockId}

/-- How a step of a thread in `acquire` of a lock ends: the thread has returned with the lock, which
no thread of the client had, or is still in `acquire`. -/
def Ends (c : Client) (t : ℕ) (lid : LockId) (c' : Client) : Prop :=
  c'.pc t = .idle ∧ c'.held = Function.update c.held t (lid :: c.held t) ∧
      (c.info lid).holder = LockInfo.FREE ∨
    c'.pc t ≠ .idle ∧ c'.held = c.held

/-- The thread is somewhere else in `acquire`. -/
theorem ends_goto {pc : Pc} (hpc : pc ≠ .idle) (hheld : c'.held = c.held) :
    c.Ends t lid (c'.goto t pc) := by
  refine Or.inr ⟨?_, hheld⟩
  rw [pc_goto, if_pos rfl]
  exact hpc

/-- The thread takes the lock or waits until no thread of the client has it. -/
theorem ends_awaitFree {lock : LockInfo} (hheld : c'.held = c.held)
    (hholder : lock.holder = (c.info lid).holder) :
    c.Ends t lid (c'.awaitFree t lid lock) := by
  unfold awaitFree
  split_ifs with hfree
  · refine Or.inl ⟨?_, ?_, hholder.symm.trans hfree⟩
    · show ((c'.setLock lid (lock.take t)).goto t .idle).pc t = .idle
      rw [pc_goto, if_pos rfl]
    · show Function.update c'.held t (lid :: c'.held t) = _
      rw [hheld]
  · exact ends_goto Pc.noConfusion hheld

/-- The thread waits until the client owns the lock, and then takes it. -/
theorem ends_awaitOwned {lock : LockInfo} (hheld : c'.held = c.held)
    (hholder : lock.holder = (c.info lid).holder) :
    c.Ends t lid (c'.awaitOwned t lid lock) := by
  unfold awaitOwned
  split_ifs
  · exact ends_goto Pc.noConfusion hheld
  · exact ends_awaitFree hheld hholder

/-- A step of a thread in `acquire`. -/
theorem run_ends {id : String} {out : List Msg} (hstep : c.run id t = some (c', out)) :
    ∃ lid, (c.pc t).wanted = some lid ∧ c.Ends t lid c' := by
  unfold run at hstep
  split_ifs at hstep
  split at hstep
  next lid hpc =>
    replace hstep := of_lock_list hstep
    refine ⟨lid, by rw [hpc]; rfl, ?_⟩
    dsimp only at hstep
    split_ifs at hstep
    · cases hstep
      exact ends_goto Pc.noConfusion rfl
    · cases hstep
      exact ends_awaitOwned rfl rfl
  next lid hpc =>
    obtain ⟨lock, hlock, hstep⟩ := Option.bind_eq_some_iff.mp hstep
    refine ⟨lid, by rw [hpc]; rfl, ?_⟩
    dsimp only at hstep
    split_ifs at hstep
    · cases hstep
      refine Or.inr ⟨?_, rfl⟩
      show ((c.setLock lid { lock with acquiring := true }).goto t (.awaitReply lid c.xid)).pc t ≠ _
      rw [pc_goto, if_pos rfl]
      exact Pc.noConfusion
    · cases hstep
      exact ends_goto Pc.noConfusion rfl
  next lid hpc =>
    replace hstep := of_lock_list hstep
    cases hstep
    exact ⟨lid, by rw [hpc]; rfl, ends_awaitOwned rfl rfl⟩
  next lid hpc =>
    replace hstep := of_lock_list hstep
    cases hstep
    exact ⟨lid, by rw [hpc]; rfl, ends_awaitOwned rfl rfl⟩
  next lid hpc =>
    replace hstep := of_lock_list hstep
    cases hstep
    exact ⟨lid, by rw [hpc]; rfl, ends_awaitFree rfl rfl⟩
  next => cases hstep

/-- A thread that calls `release` had the lock, and keeps its other locks. -/
theorem held_release (hstep : c.release t lid = some c') :
    lid ∈ c.held t ∧ c'.held = Function.update c.held t ((c.held t).filter (· ≠ lid)) := by
  unfold release at hstep
  obtain ⟨hcond, hstep⟩ := Option.ite_none_right_eq_some.mp hstep
  obtain ⟨lock, -, hstep⟩ := Option.bind_eq_some_iff.mp hstep
  refine ⟨hcond.1, ?_⟩
  dsimp only at hstep
  split_ifs at hstep <;> cases hstep <;> rfl

/-- No thread gets or loses a lock when `acquire` is called. -/
theorem held_acquire (hstep : c.acquire t lid = some c') : c'.held = c.held := by
  unfold acquire at hstep
  split_ifs at hstep
  split at hstep <;> cases hstep <;> rfl

/-- No thread gets or loses a lock when the call of `acquire_lock` returns. -/
theorem held_acquireReturns {ok : Bool} (hstep : c.acquireReturns t ok = some c') :
    c'.held = c.held := by
  unfold acquireReturns at hstep
  split at hstep
  next lid xid hpc =>
    obtain ⟨-, hstep⟩ := Option.ite_none_right_eq_some.mp hstep
    obtain ⟨lock, -, hstep⟩ := Option.bind_eq_some_iff.mp hstep
    split_ifs at hstep <;> cases hstep <;> rfl
  next => cases hstep

/-- No thread gets or loses a lock when a `revoke` arrives. -/
theorem held_revokeHandler (hstep : c.revokeHandler lid = some c') : c'.held = c.held := by
  unfold revokeHandler at hstep
  split_ifs at hstep
  split at hstep
  · cases hstep
    rfl
  · split_ifs at hstep <;> cases hstep <;> rfl

/-- No thread gets or loses a lock when a `retry` arrives. -/
theorem held_retryHandler (hstep : c.retryHandler lid = some c') : c'.held = c.held := by
  unfold retryHandler at hstep
  obtain ⟨-, hstep⟩ := Option.ite_none_right_eq_some.mp hstep
  obtain ⟨lock, -, hstep⟩ := Option.bind_eq_some_iff.mp hstep
  cases hstep
  rfl

end Client

/-! ## The table -/

variable {s s' : LockState} {e : LockEvent} {c t : ℕ} {lid : LockId}
  {table : LockId → Option (ℕ × ℕ)}

/-- An event other than a step in `acquire` and a call of `release`. -/
def Hidden : LockEvent → Prop
  | .run _ _ | .release _ _ _ => False
  | _ => True

/-- No thread gets or loses a lock in a hidden step. -/
theorem held_hidden (he : Hidden e) (hstep : s.next e = some s') (c : ℕ) :
    (s'.clients c).held = (s.clients c).held := by
  rcases clients_next hstep with hsame | ⟨c', cl, hcl, hclients⟩
  · rw [hsame]
  · rw [hclients]
    by_cases hc : c = c'
    · subst hc
      rw [Function.update_self]
      cases hcl with
      | acquire hcl => exact Client.held_acquire hcl
      | run => exact he.elim
      | reply hcl => exact Client.held_acquireReturns hcl
      | callFails hcl => exact Client.held_acquireReturns hcl
      | wakes hcl =>
        unfold Client.wakes at hcl
        split at hcl <;> cases hcl <;> rfl
      | release => exact he.elim
      | released hcl =>
        unfold Client.released at hcl
        split at hcl <;> cases hcl
        rfl
      | releaseReturns hcl =>
        unfold Client.releaseReturns at hcl
        split at hcl <;> cases hcl
        rfl
      | revoke _ hcl => exact Client.held_revokeHandler hcl
      | revokeReleased hcl =>
        obtain ⟨lid, -, hcl⟩ := Option.map_eq_some_iff.mp hcl
        cases hcl
        rfl
      | retry hcl => exact Client.held_retryHandler hcl
    · rw [Function.update_of_ne hc]

namespace TableOf

/-- No thread gets or loses a lock. -/
theorem same (h : TableOf s table) (hheld : ∀ c, (s'.clients c).held = (s.clients c).held) :
    TableOf s' table := by
  intro c t lid
  unfold Holds
  rw [hheld c]
  exact h c t lid

/-- A thread gets a lock that nobody has. -/
theorem acquired (h : TableOf s table) (hnone : table lid = none)
    (hholds : ∀ c' t' l, Holds s' c' t' l ↔ (c' = c ∧ t' = t) ∧ l = lid ∨ Holds s c' t' l) :
    TableOf s' (Function.update table lid (some (c, t))) := by
  intro c' t' l
  rw [hholds c' t' l, h c' t' l, Function.update_apply]
  by_cases hl : l = lid
  · subst hl
    rw [if_pos rfl, hnone, Option.some.injEq, Prod.mk.injEq]
    constructor
    · rintro (⟨⟨rfl, rfl⟩, -⟩ | habsurd)
      · exact ⟨rfl, rfl⟩
      · cases habsurd
    · rintro ⟨rfl, rfl⟩
      exact Or.inl ⟨⟨rfl, rfl⟩, rfl⟩
  · rw [if_neg hl]
    exact ⟨fun hor => hor.resolve_left fun heq => hl heq.2, Or.inr⟩

/-- A thread gives a lock back that it has. -/
theorem released (h : TableOf s table) (hsome : table lid = some (c, t))
    (hholds : ∀ c' t' l, Holds s' c' t' l ↔ Holds s c' t' l ∧ ((c' = c ∧ t' = t) → l ≠ lid)) :
    TableOf s' (Function.update table lid none) := by
  intro c' t' l
  rw [hholds c' t' l, h c' t' l, Function.update_apply]
  by_cases hl : l = lid
  · subst hl
    rw [if_pos rfl, hsome, Option.some.injEq, Prod.mk.injEq]
    constructor
    · rintro ⟨⟨rfl, rfl⟩, hne⟩
      exact absurd rfl (hne ⟨rfl, rfl⟩)
    · intro habsurd
      cases habsurd
  · rw [if_neg hl]
    exact ⟨fun hand => hand.1, fun htable => ⟨htable, fun _ => hl⟩⟩

/-- A thread takes a step in `acquire`. -/
theorem run (h : TableOf s table) (hinv : LockInv s) (hstep : s.next (.run c t) = some s') :
    ∃ table', (lockTable (ℕ × ℕ) LockId).exec table (observed s (.run c t) s') = some table' ∧
      TableOf s' table' := by
  have hinv' := hinv.next hstep
  obtain ⟨⟨cl, out⟩, hcl, hs'⟩ := Option.map_eq_some_iff.mp hstep
  have hclients : s'.clients = Function.update s.clients c cl := by
    subst hs'
    rfl
  have hself : s'.clients c = cl := by rw [hclients, Function.update_self]
  have hother : ∀ c', c' ≠ c → s'.clients c' = s.clients c' :=
    fun c' hc' => by rw [hclients, Function.update_of_ne hc']
  obtain ⟨lid, hwanted, ⟨hidle, hheld, hfree⟩ | ⟨hbusy, hheld⟩⟩ := Client.run_ends hcl
  · have hholds : ∀ c' t' l,
        Holds s' c' t' l ↔ (c' = c ∧ t' = t) ∧ l = lid ∨ Holds s c' t' l := by
      intro c' t' l
      unfold Holds
      by_cases hc' : c' = c
      · subst hc'
        rw [hself, hheld, Function.update_apply]
        by_cases ht' : t' = t
        · subst ht'
          simp
        · simp [ht']
      · rw [hother c' hc']
        simp [hc']
    -- Whoever had the lock before would have it still, beside the thread.
    have hnone : table lid = none := by
      refine Option.eq_none_iff_forall_ne_some.mpr fun a ha => ?_
      have hbefore : Holds s a.1 a.2 lid := (h a.1 a.2 lid).mpr ha
      have hafter := (hholds a.1 a.2 lid).mpr (Or.inr hbefore)
      obtain ⟨hc, ht⟩ := hinv'.holds_unique hafter ((hholds c t lid).mpr (Or.inl ⟨⟨rfl, rfl⟩, rfl⟩))
      rw [hc, ht] at hbefore
      have hholder := ((hinv.clients c).held t lid).mp hbefore
      rw [hfree] at hholder
      cases hholder
    refine ⟨_, ?_, h.acquired hnone hholds⟩
    dsimp only [observed]
    rw [hself, if_pos hidle, hwanted]
    exact lockTable_acquired hnone
  · refine ⟨table, ?_, h.same fun c' => ?_⟩
    · dsimp only [observed]
      rw [hself, if_neg hbusy]
      rfl
    · by_cases hc' : c' = c
      · subst hc'
        rw [hself, hheld]
      · rw [hother c' hc']

/-- A thread calls `release`. -/
theorem release (h : TableOf s table) (hstep : s.next (.release c t lid) = some s') :
    ∃ table', (lockTable (ℕ × ℕ) LockId).exec table (observed s (.release c t lid) s') =
      some table' ∧ TableOf s' table' := by
  obtain ⟨cl, hcl, rfl⟩ := Option.map_eq_some_iff.mp hstep
  obtain ⟨hmem, hheld⟩ := Client.held_release hcl
  have hsome : table lid = some (c, t) := (h c t lid).mp hmem
  refine ⟨_, lockTable_released hsome, h.released hsome fun c' t' l => ?_⟩
  unfold Holds LockState.setClient
  dsimp only
  by_cases hc' : c' = c
  · subst hc'
    rw [Function.update_self, hheld, Function.update_apply]
    by_cases ht' : t' = t
    · subst ht'
      simp
    · simp [ht']
  · rw [Function.update_of_ne hc']
    simp [hc']

/-- The table follows every step. -/
theorem step (h : TableOf s table) (hinv : LockInv s) (hstep : s.next e = some s') :
    ∃ table', (lockTable (ℕ × ℕ) LockId).exec table (observed s e s') = some table' ∧
      TableOf s' table' := by
  have hhidden : Hidden e → ∃ table', (lockTable (ℕ × ℕ) LockId).exec table [] = some table' ∧
      TableOf s' table' := fun he => ⟨table, rfl, h.same (held_hidden he hstep)⟩
  cases e with
  | run c t => exact h.run hinv hstep
  | release c t lid => exact h.release hstep
  | acquire | reply | callFails | wakes | released | releaseReturns | revoke | revokeReleased
  | retry | serverAcquire | serverRelease | enforcer | revoker | lose => exact hhidden trivial

end TableOf

/-- The clients and the server follow the table. -/
theorem cached_simulation : System.Simulation lockSystem (lockTable (ℕ × ℕ) LockId) observed
    fun s table => LockInv s ∧ TableOf s table where
  init := by
    rintro s rfl
    refine ⟨fun _ => none, rfl, .start, fun c t lid => ⟨fun hholds => ?_, fun hnone => ?_⟩⟩
    · cases hholds
    · cases hnone
  step := by
    rintro s e s' table ⟨hinv, htable⟩ hstep
    obtain ⟨table', hexec, htable'⟩ := htable.step hinv hstep
    exact ⟨table', hexec, hinv.next hstep, htable'⟩

/-- What the threads see of any run of the clients and the server is a run of the table, and at its
end the table has exactly the threads that hold a lock: a thread returns from `acquire` only when
nobody has the lock, in any client, and has it until it calls `release`. -/
theorem cached_refines_table {es : List LockEvent} (h : lockSystem.exec .start es = some s) :
    ∃ table, (lockTable (ℕ × ℕ) LockId).exec (fun _ => none)
        (lockSystem.observe observed .start es) = some table ∧
      ∀ c t lid, Holds s c t lid ↔ table lid = some (c, t) := by
  obtain ⟨table, hinit, hR⟩ := cached_simulation.init .start rfl
  obtain ⟨table', hexec, -, htable⟩ := cached_simulation.exec hR h
  obtain rfl := hinit
  exact ⟨table', hexec, htable⟩

/-- What the threads see when lock 7 is handed over. -/
theorem cached_refines_table_handed_over : ∃ s table, lockSystem.exec .start handedOver = some s ∧
    lockSystem.observe observed .start handedOver =
      [.acquired (1, 0) 7, .released (1, 0) 7, .acquired (2, 0) 7] ∧
    (lockTable (ℕ × ℕ) LockId).exec (fun _ => none)
      [.acquired (1, 0) 7, .released (1, 0) 7, .acquired (2, 0) 7] = some table ∧
    ∀ c t lid, Holds s c t lid ↔ table lid = some (c, t) := by
  have hsome : (lockSystem.exec .start handedOver).isSome = true := by decide
  have hseen : lockSystem.observe observed .start handedOver =
      [.acquired (1, 0) 7, .released (1, 0) 7, .acquired (2, 0) 7] := by decide
  obtain ⟨s, hexec⟩ := Option.isSome_iff_exists.mp hsome
  obtain ⟨table, htable, hholds⟩ := cached_refines_table hexec
  rw [hseen] at htable
  exact ⟨s, table, hexec, hseen, htable, hholds⟩

end SimpleDfs.Lock
