import Mathlib.Tactic

/-!
# The lock server

`lock_server_cache` of `lock_server_cache.cc`. The server knows for each lock the client that holds
it, whether that client was asked to give it back, and the clients that wait for it. An `acquire` of
a held lock is answered with `RETRY` and queued; a `release` passes the lock on to the first client
of the queue, to which the server sends a `retry`. The enforcer thread asks for locks that others
wait for: it queues a request for each of them, and the revoker thread sends these requests as
`revoke` calls.

Each function here runs under `sync_root`, so it is one step. A lock without a record is like a lock
with a record that is `FREE`, which `info` makes precise.
-/

namespace SimpleDfs.Lock

/-- `lock_protocol::lockid_t`. -/
abbrev LockId := ℕ

/-- What `lock_server_cache::acquire` answers. -/
inductive Status where
  /-- The lock is granted. -/
  | OK
  /-- The client has to wait for a `retry`. -/
  | RETRY
  deriving DecidableEq, Repr

/-- The record of the server for a lock. -/
structure CachedLockInfo where
  /-- The client that holds the lock. -/
  holder : String
  /-- Whether the holder is to be asked for the lock. -/
  revoked : Bool
  /-- The clients that wait for the lock. -/
  queue : List String
  deriving DecidableEq, Repr

/-- A request that the revoker has to send. -/
structure RevokeRequest where
  /-- The client that holds the lock. -/
  holder : String
  /-- The lock. -/
  lid : LockId
  deriving DecidableEq, Repr

/-- The state of `lock_server_cache`. -/
structure LockServer where
  /-- The locks that were ever acquired. -/
  lock_list : Std.TreeMap LockId CachedLockInfo
  /-- The requests that were not sent yet. -/
  revoke_queue : List RevokeRequest

namespace LockServer

/-- The holder of a lock that nobody holds. -/
def FREE : String := "MMMMM"

/-- `lock_server_cache::acquire`. -/
def acquire (s : LockServer) (lid : LockId) (id : String) : Status × LockServer :=
  match s.lock_list[lid]? with
  | none => (.OK, { s with lock_list := s.lock_list.insert lid ⟨id, false, []⟩ })
  | some lock =>
    if lock.holder = FREE then
      (.OK, { s with lock_list := s.lock_list.insert lid { lock with holder := id } })
    else
      let lock := { lock with queue := lock.queue ++ [id] }
      (.RETRY, { s with lock_list := s.lock_list.insert lid lock })

/-- `lock_server_cache::release`, with the client that is sent a `retry`. The server does not look
at who releases the lock, and it crashes on a lock that it has no record of. -/
def release (s : LockServer) (lid : LockId) (_id : String) : Option (LockServer × Option String) :=
  match s.lock_list[lid]? with
  | none => none
  | some lock =>
    match lock.queue with
    | [] =>
      let lock := { lock with revoked := false, holder := FREE }
      some ({ s with lock_list := s.lock_list.insert lid lock }, none)
    | holder :: queue =>
      let lock := { revoked := false, holder := holder, queue := queue }
      some ({ s with lock_list := s.lock_list.insert lid lock }, some holder)

end LockServer

/-- The lock is held, others wait for it, and the holder was not asked for it. -/
def CachedLockInfo.due (lock : CachedLockInfo) : Bool := lock.queue.length != 0 && !lock.revoked

namespace LockServer

/-- One pass of `lock_server_cache::enforcer` over all locks, in the order of the map. -/
def enforcer (s : LockServer) : LockServer where
  lock_list := s.lock_list.map fun _ lock =>
    if lock.due then { lock with revoked := true } else lock
  revoke_queue := s.revoke_queue ++ s.lock_list.toList.filterMap fun entry =>
    if entry.2.due then some ⟨entry.2.holder, entry.1⟩ else none

/-- One iteration of `lock_server_cache::revoker`, with the request that it sends. -/
def revoker (s : LockServer) : Option (RevokeRequest × LockServer) :=
  match s.revoke_queue with
  | [] => none
  | request :: rest => some (request, { s with revoke_queue := rest })

/-- What the server knows of a lock. A lock without a record is free. -/
def info (s : LockServer) (lid : LockId) : CachedLockInfo := s.lock_list.getD lid ⟨FREE, false, []⟩

/-! ## What the functions change -/

/-- A change of the record of one lock. -/
theorem info_insert (s : LockServer) (lid : LockId) (lock : CachedLockInfo) (i : LockId) :
    ({ s with lock_list := s.lock_list.insert lid lock } : LockServer).info i =
      if i = lid then lock else s.info i := by
  unfold info
  rw [Std.TreeMap.getD_insert]
  simp only [Nat.compare_eq_eq, eq_comm (a := lid)]

/-- The answer of `acquire` depends on whether the lock is free. -/
theorem acquire_fst (s : LockServer) (lid : LockId) (id : String) :
    (s.acquire lid id).1 = if (s.info lid).holder = FREE then .OK else .RETRY := by
  unfold acquire info
  rw [Std.TreeMap.getD_eq_getD_getElem?]
  cases s.lock_list[lid]? with
  | none => rfl
  | some lock =>
    simp only [Option.getD_some]
    split_ifs <;> rfl

/-- What `acquire` changes: a free lock is granted, and the client is queued for any other. -/
theorem info_acquire (s : LockServer) (lid : LockId) (id : String) (i : LockId) :
    (s.acquire lid id).2.info i =
      if i = lid then
        if (s.info lid).holder = FREE then { s.info lid with holder := id }
        else { s.info lid with queue := (s.info lid).queue ++ [id] }
      else s.info i := by
  have hlid : s.info lid = (s.lock_list[lid]?).getD ⟨FREE, false, []⟩ :=
    Std.TreeMap.getD_eq_getD_getElem?
  rw [hlid]
  unfold acquire
  cases s.lock_list[lid]? with
  | none => exact info_insert s lid _ i
  | some lock =>
    simp only [Option.getD_some]
    split_ifs with hfree
    all_goals
      rw [info_insert]
      simp [*]

/-- `acquire` sends no request. -/
@[simp] theorem revoke_queue_acquire (s : LockServer) (lid : LockId) (id : String) :
    (s.acquire lid id).2.revoke_queue = s.revoke_queue := by
  unfold acquire
  split
  · rfl
  · split_ifs <;> rfl

/-- A lock that is held has a record. -/
theorem mem_of_holder_ne {s : LockServer} {lid : LockId} (h : (s.info lid).holder ≠ FREE) :
    lid ∈ s.lock_list := by
  by_contra hnot
  rw [info, Std.TreeMap.getD_eq_fallback hnot] at h
  exact h rfl

/-- A lock that has a record can be released. -/
theorem exists_release {s : LockServer} {lid : LockId} (h : lid ∈ s.lock_list) (id : String) :
    ∃ got, s.release lid id = some got := by
  rw [release, Std.TreeMap.getElem?_eq_some_getElem h]
  dsimp only
  cases (s.lock_list[lid]).queue <;> exact ⟨_, rfl⟩

/-- Only a lock that has a record can be released. -/
theorem mem_of_release {s : LockServer} {lid : LockId} {id : String}
    {got : LockServer × Option String} (h : s.release lid id = some got) : lid ∈ s.lock_list := by
  by_contra hnot
  rw [release, Std.TreeMap.getElem?_eq_none hnot] at h
  cases h

/-- What `release` changes: the lock is passed on to the first client of the queue. -/
theorem info_release {s s' : LockServer} {lid : LockId} {id : String} {next : Option String}
    (h : s.release lid id = some (s', next)) (i : LockId) :
    s'.info i =
      (if i = lid then ⟨next.getD FREE, false, (s.info lid).queue.tail⟩ else s.info i) ∧
    next = (s.info lid).queue.head? ∧ s'.revoke_queue = s.revoke_queue := by
  have hlid : s.info lid = (s.lock_list[lid]?).getD ⟨FREE, false, []⟩ :=
    Std.TreeMap.getD_eq_getD_getElem?
  rw [hlid]
  unfold release at h
  cases hlock : s.lock_list[lid]? with
  | none => simp [hlock] at h
  | some lock =>
    simp only [hlock] at h
    cases hq : lock.queue with
    | nil =>
      simp only [hq, Option.some.injEq, Prod.mk.injEq] at h
      obtain ⟨rfl, rfl⟩ := h
      refine ⟨?_, ?_, rfl⟩
      · rw [info_insert]
        simp [hq]
      · simp [hq]
    | cons holder queue =>
      simp only [hq, Option.some.injEq, Prod.mk.injEq] at h
      obtain ⟨rfl, rfl⟩ := h
      refine ⟨?_, ?_, rfl⟩
      · rw [info_insert]
        simp [hq]
      · simp [hq]

/-- What a pass of the enforcer changes. -/
theorem info_enforcer (s : LockServer) (i : LockId) :
    s.enforcer.info i = if (s.info i).due then { s.info i with revoked := true } else s.info i := by
  unfold enforcer info
  rw [Std.TreeMap.getD_eq_getD_getElem?, Std.TreeMap.getD_eq_getD_getElem?,
    Std.TreeMap.getElem?_map]
  cases s.lock_list[i]? with
  | none => rfl
  | some lock => rfl

/-- A pass of the enforcer queues at most one request for a lock, to the holder of a lock that is
due. -/
theorem count_enforcer_le (s : LockServer) (r : RevokeRequest) :
    s.enforcer.revoke_queue.count r ≤ s.revoke_queue.count r +
      if (s.info r.lid).due ∧ (s.info r.lid).holder = r.holder then 1 else 0 := by
  -- What the pass does with one entry of the map.
  let ask : LockId × CachedLockInfo → Option RevokeRequest := fun entry =>
    if entry.2.due then some ⟨entry.2.holder, entry.1⟩ else none
  have hask : ∀ entry request, request ∈ ask entry →
      entry.2.due = true ∧ request = ⟨entry.2.holder, entry.1⟩ := by
    intro entry request h
    simp only [ask] at h
    split_ifs at h with hdue
    · exact ⟨hdue, (Option.some.inj h).symm⟩
    · cases h
  -- The requests of one pass are for different locks, because the keys of the map are.
  have hnodup : (s.lock_list.toList.filterMap ask).Nodup := by
    refine (Std.TreeMap.distinct_keys_toList (t := s.lock_list)).filterMap ask ?_
    intro a b hab request hrequest request' hrequest' heq
    rw [(hask a request hrequest).2, (hask b request' hrequest').2] at heq
    exact hab (by rw [(RevokeRequest.mk.inj heq).2, Nat.compare_eq_eq])
  have hcount : (s.lock_list.toList.filterMap ask).count r ≤
      if (s.info r.lid).due ∧ (s.info r.lid).holder = r.holder then 1 else 0 := by
    by_cases hr : r ∈ s.lock_list.toList.filterMap ask
    · obtain ⟨⟨lid, lock⟩, hmem, hsome⟩ := List.mem_filterMap.mp hr
      obtain ⟨hdue, rfl⟩ := hask ⟨lid, lock⟩ r hsome
      have hinfo : s.info lid = lock := by
        unfold info
        rw [Std.TreeMap.getD_eq_getD_getElem?,
          Std.TreeMap.mem_toList_iff_getElem?_eq_some.mp hmem, Option.getD_some]
      rw [if_pos ⟨by rw [hinfo]; exact hdue, by rw [hinfo]⟩]
      exact List.nodup_iff_count_le_one.mp hnodup _
    · rw [List.count_eq_zero_of_not_mem hr]
      exact Nat.zero_le _
  have happend : s.enforcer.revoke_queue = s.revoke_queue ++ s.lock_list.toList.filterMap ask := rfl
  rw [happend, List.count_append]
  omega

/-- A pass of the enforcer removes no request. -/
theorem count_le_enforcer (s : LockServer) (r : RevokeRequest) :
    s.revoke_queue.count r ≤ s.enforcer.revoke_queue.count r := by
  unfold enforcer
  rw [List.count_append]
  exact Nat.le_add_right _ _

/-- A pass of the enforcer queues a request to the holder of a lock that is due. -/
theorem count_lt_enforcer (s : LockServer) {r : RevokeRequest} (hdue : (s.info r.lid).due = true)
    (hholder : (s.info r.lid).holder = r.holder) :
    s.revoke_queue.count r < s.enforcer.revoke_queue.count r := by
  -- A lock that is due has a record, since nobody waits for a lock without one.
  have hlock : s.lock_list[r.lid]? = some (s.info r.lid) := by
    have hinfo : s.info r.lid = (s.lock_list[r.lid]?).getD ⟨FREE, false, []⟩ :=
      Std.TreeMap.getD_eq_getD_getElem?
    cases hget : s.lock_list[r.lid]? with
    | none =>
      rw [hinfo, hget] at hdue
      cases hdue
    | some lock => rw [hinfo, hget, Option.getD_some]
  have hmem : r ∈ s.lock_list.toList.filterMap fun entry =>
      if entry.2.due then some (⟨entry.2.holder, entry.1⟩ : RevokeRequest) else none := by
    refine List.mem_filterMap.mpr
      ⟨(r.lid, s.info r.lid), Std.TreeMap.mem_toList_iff_getElem?_eq_some.mpr hlock, ?_⟩
    dsimp only
    rw [if_pos hdue, hholder]
  unfold enforcer
  rw [List.count_append]
  exact Nat.lt_add_of_pos_right (List.count_pos_iff.mpr hmem)

end LockServer

end SimpleDfs.Lock
