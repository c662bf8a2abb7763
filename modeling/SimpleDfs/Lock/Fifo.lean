import SimpleDfs.Lock.System

/-!
# Locks are granted in the order of the requests

The lock server alone, with any clients that call `acquire`, and `release` for a lock of which they
are the holder. What the server does with a lock is recorded (`Deed`), the oldest first. A client
that was answered `RETRY` is granted the lock by one `retry`; the grants come in the order of these
answers, and those that are not granted yet are in the queue (`fifo_grants`).

The record of a lock says the same as the deeds: who holds the lock, who waits for it and whether
the holder was asked for it (`Tells`). Nobody waits for a lock that is free, because `release`
passes it on, and a holder is asked once, because only `release` resets `revoked`.
-/

namespace SimpleDfs.Lock

/-- What the server did with a lock. -/
inductive Deed where
  /-- It answered an `acquire` of the client with `OK`. -/
  | granted (id : String)
  /-- It answered an `acquire` of the client with `RETRY`. -/
  | queued (id : String)
  /-- It took the lock back from the client. -/
  | released (id : String)
  /-- It granted the lock to the client by a `retry`. -/
  | retried (id : String)
  /-- It issued a `revoke_request` to the client. -/
  | asked (id : String)
  deriving DecidableEq, Repr

/-- The server and its deeds for each lock, the oldest first. -/
structure ServerState where
  /-- The server. -/
  server : LockServer
  /-- The deeds. -/
  deeds : LockId → List Deed

/-- What happens at the server. -/
inductive ServerEvent where
  /-- A client calls `acquire`. -/
  | acquire (c : ℕ) (lid : LockId)
  /-- The client that holds the lock calls `release`. -/
  | release (c : ℕ) (lid : LockId)
  /-- The enforcer looks at all locks. -/
  | enforcer
  /-- The revoker sends a request. -/
  | revoker
  deriving DecidableEq, Repr

/-- The requests that a pass of the enforcer issues. -/
def LockServer.issued (s : LockServer) : List RevokeRequest :=
  s.enforcer.revoke_queue.drop s.revoke_queue.length

namespace ServerState

/-- The server does something with a lock. -/
def record (s : ServerState) (server : LockServer) (lid : LockId) (ds : List Deed) : ServerState :=
  ⟨server, Function.update s.deeds lid (s.deeds lid ++ ds)⟩

/-- The state after an event, when it is possible. -/
def next (s : ServerState) : ServerEvent → Option ServerState
  | .acquire c lid =>
    let got := s.server.acquire lid (clientId c)
    some (s.record got.2 lid
      [if got.1 = .OK then .granted (clientId c) else .queued (clientId c)])
  | .release c lid =>
    if (s.server.info lid).holder = clientId c then
      (s.server.release lid (clientId c)).map fun got =>
        s.record got.1 lid (.released (clientId c) :: (got.2.map Deed.retried).toList)
    else none
  | .enforcer =>
    some ⟨s.server.enforcer, fun lid => s.deeds lid ++
      (s.server.issued.filter fun r => r.lid = lid).map fun r => .asked r.holder⟩
  | .revoker => s.server.revoker.map fun got => { s with server := got.2 }

end ServerState

/-- The server from the start on. -/
def serverSystem : System ServerState ServerEvent where
  init s := s = ⟨⟨∅, []⟩, fun _ => []⟩
  step := ServerState.next

/-! ## What the deeds say -/

/-- The client that holds the lock after a deed, from the one before it. -/
def Deed.holds (old : Option String) : Deed → Option String
  | granted id | retried id => some id
  | released _ => none
  | queued _ | asked _ => old

/-- The client that holds the lock. -/
def holding (ds : List Deed) : Option String := ds.foldl Deed.holds none

/-- The clients that wait for the lock after a deed, from those before it. -/
def Deed.waits (old : List String) : Deed → List String
  | queued id => old ++ [id]
  | retried _ => old.tail
  | granted _ | released _ | asked _ => old

/-- The clients that wait for the lock. -/
def waiting (ds : List Deed) : List String := ds.foldl Deed.waits []

/-- Whether the holder was asked for the lock after a deed, from before it. -/
def Deed.asks (old : Bool) : Deed → Bool
  | asked _ => true
  | granted _ | released _ | retried _ => false
  | queued _ => old

/-- Whether the holder was asked for the lock since it holds it. -/
def asking (ds : List Deed) : Bool := ds.foldl Deed.asks false

/-- The clients that were answered `RETRY`. -/
def queuedIds (ds : List Deed) : List String := ds.filterMap fun d =>
  match d with
  | .queued id => some id
  | _ => none

/-- The clients that were granted the lock by a `retry`. -/
def retriedIds (ds : List Deed) : List String := ds.filterMap fun d =>
  match d with
  | .retried id => some id
  | _ => none

/-- What holds of a deed after those before it: the lock is granted when no client holds it, given
back by its holder, and its holder is asked for it once, when others wait. -/
def Deed.Fair (before : List Deed) : Deed → Prop
  | granted _ => holding before = none ∧ waiting before = []
  | queued _ => holding before ≠ none
  | released id => holding before = some id
  | retried id => holding before = none ∧ (waiting before).head? = some id
  | asked id => holding before = some id ∧ waiting before ≠ [] ∧ asking before = false

/-- All deeds are fair. -/
def Fair (ds : List Deed) : Prop := ∀ before d after, ds = before ++ d :: after → d.Fair before

/-- One more deed. -/
theorem Fair.concat {ds : List Deed} (h : Fair ds) {d : Deed} (hd : d.Fair ds) :
    Fair (ds ++ [d]) := by
  intro before d' after heq
  rcases List.eq_nil_or_concat after with rfl | ⟨after, last, rfl⟩
  · obtain ⟨rfl, hlast⟩ := List.append_inj' heq rfl
    cases hlast
    exact hd
  · have hassoc : before ++ d' :: after.concat last = (before ++ d' :: after) ++ [last] := by simp
    rw [hassoc] at heq
    exact h before d' after (List.append_inj' heq rfl).1

section Concat

variable (ds : List Deed) (d : Deed)

/-- The holder after one more deed. -/
@[simp] theorem holding_concat : holding (ds ++ [d]) = d.holds (holding ds) := by
  rw [holding, List.foldl_append]
  rfl

/-- The clients that wait after one more deed. -/
@[simp] theorem waiting_concat : waiting (ds ++ [d]) = d.waits (waiting ds) := by
  rw [waiting, List.foldl_append]
  rfl

/-- Whether the holder was asked after one more deed. -/
@[simp] theorem asking_concat : asking (ds ++ [d]) = d.asks (asking ds) := by
  rw [asking, List.foldl_append]
  rfl

end Concat

/-- Each grant by a `retry` is for the client that was answered `RETRY` first among those that
wait. -/
theorem Fair.retriedIds_append {ds : List Deed} (h : Fair ds) :
    retriedIds ds ++ waiting ds = queuedIds ds := by
  induction ds using List.reverseRecOn with
  | nil => rfl
  | append_singleton ds d ih =>
    have hd : d.Fair ds := h ds d [] rfl
    have hds : Fair ds := fun before d' after heq =>
      h before d' (after ++ [d]) (by rw [heq, List.append_assoc, List.cons_append])
    have hold := ih hds
    rw [waiting_concat]
    unfold retriedIds queuedIds at hold ⊢
    rw [List.filterMap_append, List.filterMap_append, ← hold]
    cases d with
    | granted id | released id | asked id => simp [Deed.waits]
    | queued id => simp [Deed.waits]
    | retried id =>
      obtain ⟨rest, hrest⟩ := List.head?_eq_some_iff.mp hd.2
      rw [hrest]
      simp [Deed.waits]

/-! ## The record and the deeds -/

/-- The record of a lock says the same as the deeds. -/
structure Tells (lock : CachedLockInfo) (ds : List Deed) : Prop where
  /-- The holder. -/
  holder : holding ds = if lock.holder = LockServer.FREE then none else some lock.holder
  /-- The holder is a client. -/
  client : lock.holder = LockServer.FREE ∨ ∃ c, lock.holder = clientId c
  /-- The clients that wait are clients. -/
  clients : ∀ id ∈ lock.queue, ∃ c, id = clientId c
  /-- The clients that wait. -/
  queue : waiting ds = lock.queue
  /-- Whether the holder was asked. -/
  revoked : asking ds = lock.revoked
  /-- Nobody waits for a free lock, and nobody was asked for it. -/
  free : lock.holder = LockServer.FREE → lock.queue = [] ∧ lock.revoked = false
  /-- The deeds are fair. -/
  fair : Fair ds

namespace Tells

variable {lock : CachedLockInfo} {ds : List Deed}

/-- A lock that nobody has asked for. -/
protected theorem start : Tells ⟨LockServer.FREE, false, []⟩ [] where
  holder := rfl
  client := Or.inl rfl
  clients := by simp
  queue := rfl
  revoked := rfl
  free _ := ⟨rfl, rfl⟩
  fair := by simp [Fair]

/-- The lock is granted at once. -/
theorem granted (h : Tells lock ds) (hfree : lock.holder = LockServer.FREE) (c : ℕ) :
    Tells { lock with holder := clientId c } (ds ++ [Deed.granted (clientId c)]) := by
  obtain ⟨hqueue, hrevoked⟩ := h.free hfree
  have hholding : holding ds = none := by rw [h.holder, if_pos hfree]
  have hne := clientId_ne_free c
  refine ⟨?_, Or.inr ⟨c, rfl⟩, h.clients, ?_, ?_, fun heq => absurd heq hne, h.fair.concat ?_⟩
  · rw [holding_concat, if_neg hne]
    rfl
  · rw [waiting_concat]
    exact h.queue
  · rw [asking_concat]
    exact hrevoked.symm
  · exact ⟨hholding, h.queue.trans hqueue⟩

/-- The client has to wait. -/
theorem queued (h : Tells lock ds) (hheld : lock.holder ≠ LockServer.FREE) (c : ℕ) :
    Tells { lock with queue := lock.queue ++ [clientId c] } (ds ++ [Deed.queued (clientId c)]) := by
  have hholding : holding ds = some lock.holder := by rw [h.holder, if_neg hheld]
  refine ⟨?_, h.client, fun id hid => ?_, ?_, ?_, fun heq => absurd heq hheld, h.fair.concat ?_⟩
  · rw [holding_concat]
    exact h.holder
  · rcases List.mem_append.mp hid with hid | hid
    · exact h.clients id hid
    · exact ⟨c, List.mem_singleton.mp hid⟩
  · rw [waiting_concat, h.queue]
    rfl
  · rw [asking_concat]
    exact h.revoked
  · show holding ds ≠ none
    rw [hholding]
    exact Option.some_ne_none _

/-- The holder gives the lock back. -/
theorem released (h : Tells lock ds) {c : ℕ} (hholder : lock.holder = clientId c) :
    holding (ds ++ [Deed.released (clientId c)]) = none ∧
      waiting (ds ++ [Deed.released (clientId c)]) = lock.queue ∧
      asking (ds ++ [Deed.released (clientId c)]) = false ∧
      Fair (ds ++ [Deed.released (clientId c)]) := by
  have hheld : holding ds = some (clientId c) := by
    rw [h.holder, hholder, if_neg (clientId_ne_free c)]
  refine ⟨?_, ?_, ?_, h.fair.concat hheld⟩
  · rw [holding_concat]
    rfl
  · rw [waiting_concat]
    exact h.queue
  · rw [asking_concat]
    rfl

/-- The holder gives the lock back, and nobody waits for it. -/
theorem freed (h : Tells lock ds) {c : ℕ} (hholder : lock.holder = clientId c)
    (hqueue : lock.queue = []) :
    Tells ⟨LockServer.FREE, false, []⟩ (ds ++ [Deed.released (clientId c)]) := by
  obtain ⟨hholding, hwaiting, hasking, hfair⟩ := h.released hholder
  exact ⟨hholding, Or.inl rfl, by simp, hwaiting.trans hqueue, hasking, fun _ => ⟨rfl, rfl⟩, hfair⟩

/-- The holder gives the lock back, and it is passed on to the client that has waited longest. -/
theorem passedOn (h : Tells lock ds) {c : ℕ} (hholder : lock.holder = clientId c) {id : String}
    {queue : List String} (hqueue : lock.queue = id :: queue) :
    Tells ⟨id, false, queue⟩ (ds ++ [Deed.released (clientId c), .retried id]) := by
  obtain ⟨hholding, hwaiting, hasking, hfair⟩ := h.released hholder
  obtain ⟨c', hid⟩ := h.clients id (by rw [hqueue]; exact List.mem_cons_self)
  have hne : id ≠ LockServer.FREE := hid ▸ clientId_ne_free c'
  have hassoc : ds ++ [Deed.released (clientId c), .retried id] =
      ds ++ [Deed.released (clientId c)] ++ [Deed.retried id] := by simp
  rw [hassoc]
  refine ⟨?_, Or.inr ⟨c', hid⟩, fun i hi => ?_, ?_, ?_, fun heq => absurd heq hne,
    hfair.concat ⟨hholding, ?_⟩⟩
  · rw [holding_concat, if_neg hne]
    rfl
  · exact h.clients i (by rw [hqueue]; exact List.mem_cons_of_mem _ hi)
  · rw [waiting_concat, hwaiting, hqueue]
    rfl
  · rw [asking_concat]
    rfl
  · rw [hwaiting, hqueue]
    rfl

/-- The holder is asked for the lock. -/
theorem asked (h : Tells lock ds) (hdue : lock.due = true) :
    Tells { lock with revoked := true } (ds ++ [Deed.asked lock.holder]) := by
  have hboth : lock.queue ≠ [] ∧ lock.revoked = false := by
    unfold CachedLockInfo.due at hdue
    simpa [List.length_eq_zero_iff] using hdue
  have hheld : lock.holder ≠ LockServer.FREE := fun hfree => hboth.1 (h.free hfree).1
  have hholding : holding ds = some lock.holder := by rw [h.holder, if_neg hheld]
  refine ⟨?_, h.client, h.clients, ?_, ?_, fun hfree => absurd hfree hheld, h.fair.concat ?_⟩
  · rw [holding_concat]
    exact h.holder
  · rw [waiting_concat]
    exact h.queue
  · rw [asking_concat]
    rfl
  · exact ⟨hholding, by rw [h.queue]; exact hboth.1, h.revoked.trans hboth.2⟩

end Tells

/-- The requests that a pass issues come behind those that were not sent yet. -/
theorem LockServer.count_issued (s : LockServer) (r : RevokeRequest) :
    s.enforcer.revoke_queue.count r = s.revoke_queue.count r + s.issued.count r := by
  have hqueue : s.enforcer.revoke_queue = s.revoke_queue ++ s.issued := by
    unfold issued enforcer
    rw [List.drop_left]
  rw [hqueue, List.count_append]

/-- A request that a pass issues is for a lock that is due, and to its holder. -/
theorem LockServer.due_of_mem_issued {s : LockServer} {r : RevokeRequest} (h : r ∈ s.issued) :
    (s.info r.lid).due = true ∧ (s.info r.lid).holder = r.holder := by
  have hpos := List.count_pos_iff.mpr h
  have hle := s.count_enforcer_le r
  rw [s.count_issued] at hle
  by_contra hnot
  rw [if_neg hnot] at hle
  omega

/-- A pass of the enforcer issues one request for each lock that is due. -/
theorem LockServer.filter_issued (s : LockServer) (lid : LockId) :
    (s.issued.filter fun r => r.lid = lid) =
      if (s.info lid).due then [⟨(s.info lid).holder, lid⟩] else [] := by
  split_ifs with hdue
  · let r : RevokeRequest := ⟨(s.info lid).holder, lid⟩
    -- The requests for the lock are all the same one, and there is exactly one of them.
    have hsame : (s.issued.filter fun r => r.lid = lid) = s.issued.filter (· = r) := by
      refine List.filter_congr fun r' hr' => decide_eq_decide.mpr ⟨?_, ?_⟩
      · rintro rfl
        have hholder := (due_of_mem_issued hr').2
        exact congrArg (RevokeRequest.mk · r'.lid) hholder.symm
      · rintro rfl
        rfl
    have hcount : s.issued.count r = 1 := by
      have hle := s.count_enforcer_le r
      have hlt := s.count_lt_enforcer (r := r) hdue rfl
      rw [s.count_issued] at hle hlt
      rw [if_pos ⟨hdue, rfl⟩] at hle
      omega
    rw [hsame, List.filter_eq, hcount]
    rfl
  · refine List.filter_eq_nil_iff.mpr fun r hr hlid => hdue ?_
    rw [← of_decide_eq_true hlid]
    exact (due_of_mem_issued hr).1

/-- All records say the same as the deeds. -/
def ServerInv (s : ServerState) : Prop := ∀ lid, Tells (s.server.info lid) (s.deeds lid)

namespace ServerInv

variable {s s' : ServerState}

/-- The server does something with one lock. -/
theorem record (h : ServerInv s) {server : LockServer} {lid : LockId} {lock : CachedLockInfo}
    {ds : List Deed} (hinfo : ∀ i, server.info i = if i = lid then lock else s.server.info i)
    (hlock : Tells lock (s.deeds lid ++ ds)) : ServerInv (s.record server lid ds) := by
  intro i
  show Tells (server.info i) (Function.update s.deeds lid (s.deeds lid ++ ds) i)
  rw [hinfo]
  by_cases hi : i = lid
  · subst hi
    rw [if_pos rfl, Function.update_self]
    exact hlock
  · rw [if_neg hi, Function.update_of_ne hi]
    exact h i

/-- `acquire`. -/
theorem acquire (h : ServerInv s) {c : ℕ} {lid : LockId}
    (hstep : s.next (.acquire c lid) = some s') : ServerInv s' := by
  cases hstep
  have hinfo := LockServer.info_acquire s.server lid (clientId c)
  rw [LockServer.acquire_fst]
  by_cases hfree : (s.server.info lid).holder = LockServer.FREE
  · simp only [if_pos hfree] at hinfo ⊢
    exact h.record hinfo ((h lid).granted hfree c)
  · simp only [if_neg hfree] at hinfo ⊢
    exact h.record hinfo ((h lid).queued hfree c)

/-- `release`. -/
theorem release (h : ServerInv s) {c : ℕ} {lid : LockId}
    (hstep : s.next (.release c lid) = some s') : ServerInv s' := by
  simp only [ServerState.next] at hstep
  obtain ⟨hholder, hstep⟩ := Option.ite_none_right_eq_some.mp hstep
  obtain ⟨⟨server, next⟩, hrelease, rfl⟩ := Option.map_eq_some_iff.mp hstep
  have hinfo := LockServer.info_release hrelease
  have hnext := (hinfo lid).2.1
  refine h.record (fun i => (hinfo i).1) ?_
  cases hqueue : (s.server.info lid).queue with
  | nil =>
    rw [hqueue] at hnext
    subst hnext
    exact (h lid).freed hholder hqueue
  | cons id queue =>
    rw [hqueue] at hnext
    subst hnext
    exact (h lid).passedOn hholder hqueue

/-- A pass of the enforcer. -/
theorem enforcer (h : ServerInv s) (hstep : s.next .enforcer = some s') : ServerInv s' := by
  cases hstep
  intro lid
  show Tells (s.server.enforcer.info lid) (s.deeds lid ++
    (s.server.issued.filter fun r => r.lid = lid).map fun r => .asked r.holder)
  rw [LockServer.info_enforcer, LockServer.filter_issued]
  split_ifs with hdue
  · exact (h lid).asked hdue
  · rw [List.map_nil, List.append_nil]
    exact h lid

/-- Every event keeps it. -/
theorem next (h : ServerInv s) {e : ServerEvent} (hstep : s.next e = some s') : ServerInv s' := by
  cases e with
  | acquire c lid => exact h.acquire hstep
  | release c lid => exact h.release hstep
  | enforcer => exact h.enforcer hstep
  | revoker =>
    obtain ⟨⟨request, server⟩, hrevoker, rfl⟩ := Option.map_eq_some_iff.mp hstep
    unfold LockServer.revoker at hrevoker
    split at hrevoker
    · cases hrevoker
    · cases hrevoker
      exact h

end ServerInv

/-! ## The result -/

/-- The grants of a lock: what the server promises to the clients that wait. -/
structure FifoGrants (s : ServerState) (lid : LockId) : Prop where
  /-- A lock that somebody waits for has a holder. -/
  held : (s.server.info lid).queue ≠ [] → (s.server.info lid).holder ≠ LockServer.FREE
  /-- The clients that were answered `RETRY` are granted the lock by one `retry` each, in the order
  of the answers, and those that were not granted it yet are in the queue. -/
  order : retriedIds (s.deeds lid) ++ (s.server.info lid).queue = queuedIds (s.deeds lid)
  /-- When the holder gives the lock back, the first client of the queue is granted it. -/
  passes : ∀ id queue, (s.server.info lid).queue = id :: queue → ∃ c s',
    (s.server.info lid).holder = clientId c ∧ s.next (.release c lid) = some s' ∧
      s'.deeds lid = s.deeds lid ++ [.released (clientId c), .retried id]
  /-- No client is granted the lock while another one holds it. -/
  exclusive : ∀ before id after, s.deeds lid = before ++ .granted id :: after ∨
    s.deeds lid = before ++ .retried id :: after → holding before = none
  /-- The holder is asked for the lock at most once while it holds it, and only when others wait. -/
  revokes : ∀ before id after, s.deeds lid = before ++ .asked id :: after →
    holding before = some id ∧ waiting before ≠ [] ∧ asking before = false

/-- The lock server grants every lock in the order in which it was asked for it. -/
theorem fifo_grants {s : ServerState} (h : serverSystem.Reachable System.anything s)
    (lid : LockId) : FifoGrants s lid := by
  have hinv : ServerInv s := by
    refine h.invariant (I := ServerInv) (fun s hinit lid => ?_)
      fun _ _ _ hI _ hstep => hI.next hstep
    obtain rfl : s = ⟨⟨∅, []⟩, fun _ => []⟩ := hinit
    exact Tells.start
  have htells := hinv lid
  have hheld : (s.server.info lid).queue ≠ [] → (s.server.info lid).holder ≠ LockServer.FREE :=
    fun hqueue hfree => hqueue (htells.free hfree).1
  refine ⟨hheld, ?_, fun id queue hqueue => ?_, fun before id after heq => ?_,
    fun before id after heq => htells.fair before _ after heq⟩
  · rw [← htells.queue]
    exact htells.fair.retriedIds_append
  · have hne := hheld (by rw [hqueue]; exact List.cons_ne_nil _ _)
    obtain ⟨c, hc⟩ := htells.client.resolve_left hne
    obtain ⟨⟨server, next⟩, hrelease⟩ :=
      LockServer.exists_release (LockServer.mem_of_holder_ne hne) (clientId c)
    have hnext := (LockServer.info_release hrelease lid).2.1
    rw [hqueue] at hnext
    subst hnext
    refine ⟨c, s.record server lid [.released (clientId c), .retried id], hc, ?_, ?_⟩
    · simp only [ServerState.next, if_pos hc, hrelease]
      rfl
    · exact Function.update_self lid _ s.deeds
  · rcases heq with heq | heq
    · exact (htells.fair before _ after heq).1
    · exact (htells.fair before _ after heq).1

/-- Three clients ask for lock `7`; the first one is asked for it once and gives it back, and the
second one is granted it while the third one waits. -/
theorem fifo_grants_three_clients : ∃ s, serverSystem.Reachable System.anything s ∧
    s.deeds 7 = [.granted (clientId 1), .queued (clientId 2), .queued (clientId 3),
      .asked (clientId 1), .released (clientId 1), .retried (clientId 2)] ∧
    (s.server.info 7).queue = [clientId 3] ∧ FifoGrants s 7 := by
  have hrun : (serverSystem.exec ⟨⟨∅, []⟩, fun _ => []⟩
      [.acquire 1 7, .acquire 2 7, .acquire 3 7, .enforcer, .enforcer, .release 1 7]).map
      (fun s => (s.deeds 7, (s.server.info 7).queue)) =
      some ([.granted (clientId 1), .queued (clientId 2), .queued (clientId 3),
        .asked (clientId 1), .released (clientId 1), .retried (clientId 2)], [clientId 3]) := by
    decide
  obtain ⟨s, hexec, hval⟩ := Option.map_eq_some_iff.mp hrun
  have hreachable := System.Reachable.of_exec hexec rfl
  obtain ⟨hdeeds, hqueue⟩ := Prod.mk.inj hval
  exact ⟨s, hreachable, hdeeds, hqueue, fifo_grants hreachable 7⟩

end SimpleDfs.Lock
