import Mathlib.Data.Int.Basic
import Mathlib.Data.List.Basic
import Mathlib.Tactic.SplitIfs

/-!
# The reply window of an RPC server

`rpcs` of `rpc/rpc.cc` keeps, for each client nonce, a list of the requests that it has seen, each
with its reply once the handler has returned. `checkduplicateAndUpdate` classifies an arriving
request against that list and prunes it by the client's `xid_rep`; `addReply` records a reply. Both
run under `reply_window_m_`, so each is one atomic function of the client's window.

Two lines of the source are kept as they stand. The request that finds the window empty is
remembered as xid `0`, not under its own xid, and the search for the smallest xid of the window
assigns the xid of the request when it finds a smaller entry.
-/

namespace SimpleDfs.Rpc

/-- `reply_t`: a request of the window, with its reply when `cb_present`. -/
structure ReplyT where
  /-- The request's xid. -/
  xid : ℕ
  /-- Whether the reply buffer is valid. -/
  cb_present : Bool
  /-- The reply buffer, `none` for `NULL`. -/
  buf : Option (List UInt8)
  /-- The size of the reply buffer. -/
  sz : ℤ
  deriving DecidableEq, Repr

/-- The constructor of `reply_t`: a request in progress. -/
def ReplyT.inProgress (xid : ℕ) : ReplyT := ⟨xid, false, none, 0⟩

/-- `rpcstate_t`, the answers of `checkduplicate_and_update`. -/
inductive RpcState where
  | NEW
  | INPROGRESS
  | DONE
  | FORGOTTEN
  deriving DecidableEq, Repr

/-- The value of `min_xid` after its loop over the window `front :: w`. The loop assigns `xid`, the
request's own xid, where an entry is smaller. -/
def minXid (xid front : ℕ) (w : List ReplyT) : ℕ :=
  w.foldl (fun min_xid r => if r.xid < min_xid then xid else min_xid) front

/-- The scan of the window for `xid`: the first valid reply ends it with `DONE` and that reply. -/
def scan (xid : ℕ) : RpcState → List ReplyT → RpcState × Option (Option (List UInt8) × ℤ)
  | state, [] => (state, none)
  | state, r :: rs =>
    if r.xid = xid then
      if r.cb_present then (.DONE, some (r.buf, r.sz)) else scan xid .INPROGRESS rs
    else scan xid state rs

/-- The cleanup of old replies: entries below `xid_rep` leave the window. -/
def cleanup (xid_rep : ℕ) (w : List ReplyT) : List ReplyT := w.filter fun r => ¬ r.xid < xid_rep

/-- `rpcs::checkduplicate_and_update` on one client's window: the answer, the window after it, and
the buffer and size returned with `DONE`. -/
def checkduplicateAndUpdate (w : List ReplyT) (xid xid_rep : ℕ) :
    RpcState × List ReplyT × Option (Option (List UInt8) × ℤ) :=
  match w with
  -- The source appends `reply_t(0)` here, and not an entry for `xid`.
  | [] => (.NEW, [ReplyT.inProgress 0], none)
  | front :: rest =>
    if xid < minXid xid front.xid (front :: rest) then (.FORGOTTEN, front :: rest, none)
    else
      let w' := cleanup xid_rep (front :: rest)
      let (state, out) := scan xid .NEW w'
      (state, if state = .NEW then w' ++ [ReplyT.inProgress xid] else w', out)

/-- `rpcs::add_reply` on one client's window. -/
def addReply (w : List ReplyT) (xid : ℕ) (b : List UInt8) (sz : ℤ) : List ReplyT :=
  w ++ [⟨xid, true, some b, sz⟩]

/-! ## The smallest xid -/

/-- Where no entry is below the front, the loop leaves `min_xid` at the front's xid. -/
theorem minXid_of_front_le {xid front : ℕ} {w : List ReplyT} (h : ∀ r ∈ w, front ≤ r.xid) :
    minXid xid front w = front := by
  induction w with
  | nil => rfl
  | cons r rs ih =>
    have hr : ¬ r.xid < front := not_lt.mpr (h r List.mem_cons_self)
    simp only [minXid, List.foldl_cons, if_neg hr]
    exact ih fun r' h' => h r' (List.mem_cons_of_mem _ h')

/-! ## The scan and the cleanup -/

/-- A scan that starts at `INPROGRESS` does not answer `NEW`. -/
theorem scan_inProgress_ne_new (xid : ℕ) (w : List ReplyT) :
    (scan xid .INPROGRESS w).1 ≠ .NEW := by
  induction w with
  | nil => simp [scan]
  | cons r rs ih =>
    simp only [scan]
    split_ifs
    · simp
    · exact ih
    · -- An entry of another request does not change the state.
      exact ih

/-- The scan answers `NEW` exactly when the window has no entry with the request's xid. -/
theorem scan_eq_new_iff (xid : ℕ) (w : List ReplyT) :
    (scan xid .NEW w).1 = .NEW ↔ ∀ r ∈ w, r.xid ≠ xid := by
  induction w with
  | nil => simp [scan]
  | cons r rs ih =>
    rw [List.forall_mem_cons]
    simp only [scan]
    split_ifs with hx hcb
    · simp [hx]
    · simp [hx, scan_inProgress_ne_new]
    · simp [hx, ih]

/-- The cleanup keeps the entries from `xid_rep` on. -/
theorem mem_cleanup {xid_rep : ℕ} {w : List ReplyT} {r : ReplyT} :
    r ∈ cleanup xid_rep w ↔ r ∈ w ∧ xid_rep ≤ r.xid := by
  simp [cleanup]

/-- The cleanup never lowers the front: the first entry that is left is the old front, or is not
below the `xid_rep` that removed it. -/
theorem le_front_of_cleanup {xid_rep : ℕ} {front r : ReplyT} {rest rs : List ReplyT}
    (h : cleanup xid_rep (front :: rest) = r :: rs) : front.xid ≤ r.xid := by
  have hr : xid_rep ≤ r.xid := (mem_cleanup.mp (h ▸ List.mem_cons_self)).2
  by_cases hf : front.xid < xid_rep
  · -- The front is dropped, and what is left is from `xid_rep` on.
    omega
  · simp only [cleanup, List.filter_cons, hf, not_false_eq_true, decide_true, if_true,
      List.cons.injEq] at h
    exact Nat.le_of_eq (congrArg ReplyT.xid h.1)

end SimpleDfs.Rpc
