import SimpleDfs.Lock.System
import SimpleDfs.Lock.Threads

/-!
# Who has a lock

The joint invariant of the lock clients, the lock server and the messages in flight. It is stated
for one client and one lock at a time, as inequalities between numbers (`Sound`):

* `grants`: there is at most one sign that the client has the lock: it owns it, a grant is on its
  way (the answer `OK` or a `retry`), or the lock is on its way back (a call of `dorelease`, then a
  `release`). Any of them means that the server has the client as the holder.
* `wanted`: there is at most one sign that the server wants the lock back, from the request of the
  enforcer to the `release` that answers it. Any of them means that the server asked this holder.
* `requests`: a client that is acquiring the lock asked for it once, and any other client did not.
* `granted` and `pending`: a client that the server has not asked, or that is being asked, owns the
  lock or is acquiring it. So a `revoke` never makes a client give back a lock that it does not
  have.

The clients do not know of each other; they are tied together by the one holder that the server has.
-/

namespace SimpleDfs.Lock

/-! ## Messages in flight -/

/-- What a message is to the client and the lock that it is about. -/
inductive Kind where
  /-- The client asks for the lock. -/
  | request
  /-- The lock is granted at once. -/
  | ok
  /-- The client has to wait. -/
  | wait
  /-- The lock is granted later on. -/
  | retry
  /-- The lock is given back. -/
  | release
  /-- The server wants the lock back. -/
  | revoke
  deriving DecidableEq, Repr

/-- What holds for every kind, kind by kind. -/
theorem Kind.forall {p : Kind → Prop} :
    (∀ k, p k) ↔ p .request ∧ p .ok ∧ p .retry ∧ p .release ∧ p .revoke ∧ p .wait := by
  refine ⟨fun h => ⟨h _, h _, h _, h _, h _, h _⟩, fun h k => ?_⟩
  cases k <;> simp only [h]

namespace Msg

/-- The lock that the message is about. -/
def lid : Msg → LockId
  | acquire lid _ _ | reply lid _ _ _ | release lid _ | revoke lid _ | retry lid _ => lid

/-- The client that the message comes from or goes to. -/
def id : Msg → String
  | acquire _ id _ | reply _ id _ _ | release _ id | revoke _ id | retry _ id => id

/-- What the message is. -/
def kind : Msg → Kind
  | acquire _ _ _ => .request
  | reply _ _ _ .OK => .ok
  | reply _ _ _ .RETRY => .wait
  | release _ _ => .release
  | revoke _ _ => .revoke
  | retry _ _ => .retry

/-- The message is of the given kind, for the given client and lock. -/
def Is (k : Kind) (id : String) (lid : LockId) (m : Msg) : Prop :=
  m.kind = k ∧ m.id = id ∧ m.lid = lid

instance (k : Kind) (id : String) (lid : LockId) : DecidablePred (Is k id lid) :=
  fun m => inferInstanceAs (Decidable (m.kind = k ∧ m.id = id ∧ m.lid = lid))

end Msg

/-- The number of messages of a kind in flight for a client and a lock. -/
def inFlight (msgs : List Msg) (id : String) (lid : LockId) (k : Kind) : ℕ :=
  msgs.countP fun m => decide (m.Is k id lid)

/-- One message more in flight. -/
theorem inFlight_cons (m : Msg) (msgs : List Msg) (id : String) (lid : LockId) (k : Kind) :
    inFlight (m :: msgs) id lid k = inFlight msgs id lid k + if m.Is k id lid then 1 else 0 := by
  simp [inFlight, List.countP_cons]

/-- One message less in flight. -/
theorem inFlight_erase {m : Msg} {msgs : List Msg} (h : m ∈ msgs) (id : String) (lid : LockId)
    (k : Kind) :
    inFlight (msgs.erase m) id lid k + (if m.Is k id lid then 1 else 0) =
      inFlight msgs id lid k := by
  have hcount := countP_erase_add (p := fun m => decide (m.Is k id lid)) h
  simpa [inFlight] using hcount

/-! ## One client and one lock -/

/-- The invariant for one client and one lock, from the flags of the client, the messages in flight,
whether the server has the client as the holder, whether the server has asked the holder, and how
often the client is queued and about to be asked. -/
structure Sound (fl : Flags) (tr : Kind → ℕ) (holds revoked : Bool) (queued due : ℕ) : Prop where
  /-- At most one sign that the client has the lock, and then it is the holder. -/
  grants : fl.owned.toNat + tr .ok + tr .retry + fl.flushes + tr .release ≤ holds.toNat
  /-- At most one sign that the lock is wanted back, and then the client is the holder. -/
  wanted : fl.revoked.toNat + due + tr .revoke + fl.flushes + tr .release ≤ holds.toNat
  /-- If the lock is wanted back then the holder was asked. -/
  asked : fl.revoked.toNat + due + tr .revoke + fl.flushes + tr .release ≤ revoked.toNat
  /-- A client that is acquiring the lock asked for it once. -/
  requests : tr .request + queued + tr .ok + tr .retry ≤ fl.acquiring.toNat
  /-- A client that is acquiring the lock does not own it. -/
  phases : fl.owned.toNat + fl.acquiring.toNat ≤ 1
  /-- A holder that was not asked owns the lock or is acquiring it. -/
  granted : holds.toNat ≤ fl.owned.toNat + fl.acquiring.toNat + revoked.toNat
  /-- A client that is being asked owns the lock or is acquiring it. -/
  pending : fl.revoked.toNat + due + tr .revoke ≤ fl.owned.toNat + fl.acquiring.toNat

namespace Sound

variable {fl : Flags} {tr tr' : Kind → ℕ} {holds revoked : Bool} {queued due : ℕ}

/-- Messages may be lost. -/
theorem mono (h : Sound fl tr holds revoked queued due) (htr : ∀ k, tr' k ≤ tr k) :
    Sound fl tr' holds revoked queued due := by
  rw [Kind.forall] at htr
  obtain ⟨hgrants, hwanted, hasked, hrequests, hphases, hgranted, hpending⟩ := h
  constructor <;> omega

/-- The client asks for the lock. -/
theorem request (h : Sound fl tr holds revoked queued due) (hacquiring : fl.acquiring = false)
    (howned : fl.owned = false) (htr : ∀ k, tr' k = tr k + if Kind.request = k then 1 else 0) :
    Sound { fl with acquiring := true } tr' holds revoked queued due := by
  obtain ⟨hgrants, hwanted, hasked, hrequests, hphases, hgranted, hpending⟩ := h
  simp only [hacquiring, howned, Bool.toNat_false] at hgrants hrequests hphases hgranted hpending
  constructor
  all_goals
    simp only [htr, howned, Bool.toNat_false, Bool.toNat_true, reduceCtorEq, if_false, if_true]
    omega

/-- A grant arrives, as the answer `OK` or as a `retry`. -/
theorem own (h : Sound fl tr holds revoked queued due) {k₀ : Kind} (hk₀ : k₀ = .ok ∨ k₀ = .retry)
    (htr : ∀ k, tr' k + (if k₀ = k then 1 else 0) = tr k) :
    Sound { fl with acquiring := false, owned := true } tr' holds revoked queued due := by
  -- By `requests` the client was acquiring the lock, and the grant was the only answer to come.
  have hacquiring := fl.acquiring.toNat_le
  obtain ⟨hgrants, hwanted, hasked, hrequests, hphases, hgranted, hpending⟩ := h
  rcases hk₀ with rfl | rfl
  all_goals
    simp only [Kind.forall, reduceCtorEq, if_false, if_true] at htr
    constructor
    all_goals
      simp only [Bool.toNat_false, Bool.toNat_true]
      omega

/-- The client learns that it has to wait, or that its call failed. -/
theorem wait (h : Sound fl tr holds revoked queued due) (howned : fl.owned = false)
    (htr : ∀ k, tr' k ≤ tr k) :
    Sound { fl with acquiring := true, owned := false } tr' holds revoked queued due := by
  -- `acquiring` is set again, which makes the bounds by it no tighter.
  have hacquiring := fl.acquiring.toNat_le
  obtain ⟨hgrants, hwanted, hasked, hrequests, hphases, hgranted, hpending⟩ := h.mono htr
  simp only [howned, Bool.toNat_false] at hgrants hphases hgranted hpending
  constructor
  all_goals
    simp only [Bool.toNat_false, Bool.toNat_true]
    omega

/-- The last thread lets a lock go that the server wants back. -/
theorem giveBack (h : Sound fl tr holds revoked queued due) (howned : fl.owned = true)
    (hrevoked : fl.revoked = true) :
    Sound ⟨false, false, false, fl.flushes + 1⟩ tr holds revoked queued due := by
  -- The one sign that the client has the lock, and the one that it is wanted, is the flush now.
  obtain ⟨hgrants, hwanted, hasked, hrequests, hphases, hgranted, hpending⟩ := h
  have hholds := holds.toNat_le
  simp only [howned, hrevoked, Bool.toNat_true] at hgrants hwanted hasked hphases hgranted hpending
  constructor
  all_goals
    simp only [Bool.toNat_false]
    omega

/-- A `revoke` arrives at a client that can give the lock back at once. -/
theorem giveBackRevoked (h : Sound fl tr holds revoked queued due)
    (hacquiring : fl.acquiring = false)
    (htr : ∀ k, tr' k + (if Kind.revoke = k then 1 else 0) = tr k) :
    Sound ⟨false, false, false, fl.flushes + 1⟩ tr' holds revoked queued due := by
  simp only [Kind.forall, reduceCtorEq, if_false, if_true] at htr
  -- By `pending` the client owns the lock, since it is not acquiring it.
  have hholds := holds.toNat_le
  have howned := fl.owned.toNat_le
  obtain ⟨hgrants, hwanted, hasked, hrequests, hphases, hgranted, hpending⟩ := h
  simp only [hacquiring, Bool.toNat_false] at hrequests hphases hgranted hpending
  constructor
  all_goals
    simp only [Bool.toNat_false]
    omega

/-- A `revoke` arrives at a client that cannot give the lock back yet. -/
theorem remember (h : Sound fl tr holds revoked queued due)
    (htr : ∀ k, tr' k + (if Kind.revoke = k then 1 else 0) = tr k) :
    Sound { fl with revoked := true } tr' holds revoked queued due := by
  simp only [Kind.forall, reduceCtorEq, if_false, if_true] at htr
  have hholds := holds.toNat_le
  obtain ⟨hgrants, hwanted, hasked, hrequests, hphases, hgranted, hpending⟩ := h
  constructor
  all_goals
    simp only [Bool.toNat_true]
    omega

/-- A `revoke` in flight goes to a client that owns the lock or is acquiring it. -/
theorem not_idle_of_revoke (h : Sound fl tr holds revoked queued due) (hrevoke : 0 < tr .revoke) :
    ¬ (fl.owned = false ∧ fl.acquiring = false) := by
  rintro ⟨howned, hacquiring⟩
  have hpending := h.pending
  simp only [howned, hacquiring, Bool.toNat_false] at hpending
  omega

/-- `dorelease` returns, and the lock is sent back. -/
theorem sendBack (h : Sound fl tr holds revoked queued due) (hflushes : 0 < fl.flushes)
    (htr : ∀ k, tr' k = tr k + if Kind.release = k then 1 else 0) :
    Sound { fl with flushes := fl.flushes - 1 } tr' holds revoked queued due := by
  obtain ⟨hgrants, hwanted, hasked, hrequests, hphases, hgranted, hpending⟩ := h
  constructor
  all_goals
    simp only [htr, reduceCtorEq, if_false, if_true]
    omega

/-- The server grants a free lock. -/
theorem grant (h : Sound fl tr false revoked queued due)
    (htr : ∀ k, tr' k + (if Kind.request = k then 1 else 0) = tr k + if Kind.ok = k then 1 else 0) :
    Sound fl tr' true revoked queued due := by
  simp only [Kind.forall, reduceCtorEq, if_false, if_true] at htr
  -- A client that is not the holder has no sign of the lock yet.
  obtain ⟨hgrants, hwanted, hasked, hrequests, hphases, hgranted, hpending⟩ := h
  simp only [Bool.toNat_false] at hgrants hwanted hgranted
  constructor
  all_goals
    try simp only [Bool.toNat_true]
    omega

/-- The server queues the client. -/
theorem enqueue (h : Sound fl tr holds revoked queued due)
    (htr : ∀ k, tr' k + (if Kind.request = k then 1 else 0) =
      tr k + if Kind.wait = k then 1 else 0) :
    Sound fl tr' holds revoked (queued + 1) due := by
  simp only [Kind.forall, reduceCtorEq, if_false, if_true] at htr
  obtain ⟨hgrants, hwanted, hasked, hrequests, hphases, hgranted, hpending⟩ := h
  constructor <;> omega

/-- A `release` arrives: the client that sent it, and any client that was not the holder, has
nothing. -/
theorem vacate (h : Sound fl tr holds revoked queued due)
    (htr : holds = false ∧ (∀ k, tr' k = tr k) ∨
      ∀ k, tr' k + (if Kind.release = k then 1 else 0) = tr k) :
    Sound fl tr' false false queued due := by
  have hholds := holds.toNat_le
  obtain ⟨hgrants, hwanted, hasked, hrequests, hphases, hgranted, hpending⟩ := h
  rcases htr with ⟨hfalse, htr⟩ | htr
  · simp only [hfalse, Bool.toNat_false] at hgrants hwanted
    constructor
    all_goals
      try simp only [htr, Bool.toNat_false]
      omega
  · -- The `release` was the one sign that the client had the lock.
    simp only [Kind.forall, reduceCtorEq, if_false, if_true] at htr
    constructor
    all_goals
      try simp only [Bool.toNat_false]
      omega

/-- The server passes the lock on to the first client of the queue. -/
theorem passOn (h : Sound fl tr false false (queued + 1) due)
    (htr : ∀ k, tr' k = tr k + if Kind.retry = k then 1 else 0) :
    Sound fl tr' true false queued due := by
  obtain ⟨hgrants, hwanted, hasked, hrequests, hphases, hgranted, hpending⟩ := h
  simp only [Bool.toNat_false] at hgrants hwanted hasked hgranted
  constructor
  all_goals
    try simp only [htr, Bool.toNat_true, Bool.toNat_false, reduceCtorEq, if_false, if_true]
    omega

/-- The enforcer asks the holder. -/
theorem enforce (h : Sound fl tr holds false queued due) {due' : ℕ}
    (hdue : due' ≤ due + holds.toNat) :
    Sound fl tr holds true queued due' := by
  -- Nobody was asked so far (`asked`), and the holder owns the lock or is acquiring it.
  have hholds := holds.toNat_le
  obtain ⟨hgrants, hwanted, hasked, hrequests, hphases, hgranted, hpending⟩ := h
  simp only [Bool.toNat_false] at hasked hgranted
  constructor
  all_goals
    try simp only [Bool.toNat_true]
    omega

/-- The revoker sends a request. -/
theorem sendRevoke (h : Sound fl tr holds revoked queued (due + 1))
    (htr : ∀ k, tr' k = tr k + if Kind.revoke = k then 1 else 0) :
    Sound fl tr' holds revoked queued due := by
  obtain ⟨hgrants, hwanted, hasked, hrequests, hphases, hgranted, hpending⟩ := h
  constructor
  all_goals
    try simp only [htr, reduceCtorEq, if_false, if_true]
    omega

end Sound

end SimpleDfs.Lock
