import Mathlib.Data.List.Induction
import Mathlib.Data.List.TakeWhile
import Mathlib.Order.Bounds.Defs
import Mathlib.Tactic
import SimpleDfs.Base.System
import SimpleDfs.Rpc.AtMostOnce

/-!
# The xids that a client has acknowledged

`rpcc` of `rpc/rpc.cc` sends with each request an `xid_rep`, the last xid up to which all of its
calls have finished. It keeps the xids of finished calls in `xid_rep_window_`, a sorted list whose
front is `xid_rep`: `update_xid_rep` inserts an xid and then drops the front while the next entry is
its successor. `got_pdu` reports the xid of every reply, and `call1` the xid of every call that
returns, so most xids are reported twice.

The loop of the compression goes over the entries behind the front, and its invariant is `Covers`:
the entries before the iterator have a gap behind the front, and the xids up to the front were all
reported. `xid_rep_acknowledged` draws the conclusion, that the front is the largest number up to
which all xids were reported, and that no header packed by `call1` acknowledges a call that still
waits for its reply.
-/

namespace SimpleDfs.Rpc

/-- `xid_rep_window_.insert`: the xid before the first entry that is larger, or at the end. -/
def insertXid (xid : ℕ) : List ℕ → List ℕ
  | [] => [xid]
  | x :: w => if x > xid then xid :: x :: w else x :: insertXid xid w

/-- The inner loop of the compression, for an entry `x`: the front is dropped while `x` is its
successor. The argument is the window before `x`; when it is used up, `x` is the front. -/
def popFront (x : ℕ) (before : List ℕ) : List ℕ :=
  before.dropWhile fun front => (front + 1) % 2 ^ 32 = x

/-- The loop of the compression, for the window `before` the iterator and the entries from it on. -/
def compress (before : List ℕ) : List ℕ → List ℕ
  | [] => before
  | x :: rest => compress (popFront x before ++ [x]) rest

/-- `rpcc::update_xid_rep`. The window always has a front. -/
def updateXidRep (w : List ℕ) (xid : ℕ) : List ℕ :=
  match w with
  | [] => []
  | front :: rest =>
    if xid ≤ front then front :: rest
    else
      match insertXid xid (front :: rest) with
      | [] => []
      | front :: rest => compress [front] rest

/-- The window after the xids have been reported, in this order. -/
def xidRepWindow (xids : List ℕ) : List ℕ := xids.foldl updateXidRep [0]

/-! ## The insertion -/

/-- What the insertion adds. -/
theorem mem_insertXid {xid y : ℕ} {w : List ℕ} : y ∈ insertXid xid w ↔ y = xid ∨ y ∈ w := by
  induction w with
  | nil => simp [insertXid]
  | cons x w ih =>
    rw [insertXid]
    split_ifs
    · simp
    · simp only [List.mem_cons, ih]
      tauto

/-- The insertion keeps the window sorted. -/
theorem pairwise_insertXid {xid : ℕ} {w : List ℕ} (h : w.Pairwise (· ≤ ·)) :
    (insertXid xid w).Pairwise (· ≤ ·) := by
  induction w with
  | nil => simp [insertXid]
  | cons x w ih =>
    rw [List.pairwise_cons] at h
    rw [insertXid]
    split_ifs with hlt
    · refine List.pairwise_cons.mpr ⟨fun y hy => ?_, List.pairwise_cons.mpr h⟩
      rcases List.mem_cons.mp hy with rfl | hy
      · exact Nat.le_of_lt hlt
      · exact (Nat.le_of_lt hlt).trans (h.1 y hy)
    · refine List.pairwise_cons.mpr ⟨fun y hy => ?_, ih h.2⟩
      rcases mem_insertXid.mp hy with rfl | hy
      · exact not_lt.mp hlt
      · exact h.1 y hy

/-! ## The compression -/

/-- The invariant of the compression: `before` are the entries up to the iterator, the first of them
the front, and `rest` those from it on. All xids up to the front were reported. -/
structure Covers (reported : List ℕ) (front : ℕ) (before rest : List ℕ) : Prop where
  /-- The front is the first entry. -/
  head : before.head? = some front
  /-- The window is sorted. -/
  sorted : (before ++ rest).Pairwise (· ≤ ·)
  /-- All xids up to the front were reported. -/
  acknowledged : ∀ y, 1 ≤ y → y ≤ front → y ∈ reported
  /-- The successor of the front is not among the entries up to the iterator. -/
  gap : front + 1 ∉ before
  /-- An xid that was reported is up to the front, or in the window. -/
  recorded : ∀ y ∈ reported, y ≤ front ∨ y ∈ before ++ rest
  /-- The entries of the window were reported, but for the `0` of the start. -/
  sound : ∀ y ∈ before ++ rest, y = 0 ∨ y ∈ reported

namespace Covers

variable {reported before rest : List ℕ} {front x : ℕ}

/-- The front, with the entries behind it. -/
theorem exists_cons (h : Covers reported front before rest) : ∃ bs, before = front :: bs :=
  List.head?_eq_some_iff.mp h.head

/-- The front is the smallest entry. -/
theorem front_le (h : Covers reported front before rest) {y : ℕ} (hy : y ∈ before ++ rest) :
    front ≤ y := by
  obtain ⟨bs, rfl⟩ := h.exists_cons
  rcases List.mem_cons.mp hy with rfl | hy
  · exact le_rfl
  · exact (List.pairwise_cons.mp h.sorted).1 y hy

/-- The entries before the successor of the front are between the two, and not the successor. -/
theorem eq_front (h : Covers reported front before (x :: rest)) (hx : x = front + 1) {y : ℕ}
    (hy : y ∈ before) : y = front := by
  have hle := h.front_le (List.mem_append_left _ hy)
  have hge := (List.pairwise_append.mp h.sorted).2.2 y hy x List.mem_cons_self
  have hne : y ≠ front + 1 := fun heq => h.gap (heq ▸ hy)
  omega

/-- The next entry is the successor of the front, which moves on to it. -/
theorem popped (h : Covers reported front before (x :: rest)) (hx : x = front + 1) :
    Covers reported x [x] rest := by
  have hsorted := (List.pairwise_append.mp h.sorted).2.1
  refine ⟨rfl, hsorted, fun y hpos hy => ?_, by simp, fun y hy => ?_, fun y hy => ?_⟩
  · rcases Nat.lt_or_ge front y with hlt | hge
    · obtain rfl : y = x := by omega
      exact (h.sound y (List.mem_append_right _ List.mem_cons_self)).resolve_left (by omega)
    · exact h.acknowledged y hpos hge
  · rcases h.recorded y hy with hle | hmem
    · exact Or.inl (by omega)
    · rcases List.mem_append.mp hmem with hmem | hmem
      · exact Or.inl (by rw [h.eq_front hx hmem]; omega)
      · exact Or.inr hmem
  · exact h.sound y (List.mem_append_right _ hy)

/-- The next entry is not the successor of the front, and nothing is dropped. -/
theorem passed (h : Covers reported front before (x :: rest)) (hx : x ≠ front + 1) :
    Covers reported front (before ++ [x]) rest := by
  obtain ⟨bs, rfl⟩ := h.exists_cons
  have hsame : front :: bs ++ [x] ++ rest = front :: bs ++ x :: rest := by simp
  refine ⟨rfl, hsame ▸ h.sorted, h.acknowledged, fun hmem => ?_, hsame ▸ h.recorded,
    hsame ▸ h.sound⟩
  rcases List.mem_append.mp hmem with hmem | hmem
  · exact h.gap hmem
  · exact hx (List.mem_singleton.mp hmem).symm

/-- The inner loop drops all entries before the successor of the front, and else none. -/
theorem popFront_append (h : Covers reported front before (x :: rest))
    (hfront : front < 2 ^ 32 - 1) :
    ∃ front', Covers reported front' (popFront x before ++ [x]) rest := by
  have hmod : (front + 1) % 2 ^ 32 = front + 1 := Nat.mod_eq_of_lt (by omega)
  by_cases hx : x = front + 1
  · have hempty : popFront x before = [] := by
      refine List.dropWhile_eq_nil_iff.mpr fun y hy => decide_eq_true ?_
      rw [h.eq_front hx hy, hmod, hx]
    rw [hempty]
    exact ⟨x, h.popped hx⟩
  · have hsame : popFront x before = before := by
      obtain ⟨bs, rfl⟩ := h.exists_cons
      exact List.dropWhile_cons_of_neg (by rw [hmod]; simpa using Ne.symm hx)
    rw [hsame]
    exact ⟨front, h.passed hx⟩

/-- The whole loop. -/
theorem compress (h : Covers reported front before rest)
    (hbound : ∀ y ∈ reported, y < 2 ^ 32 - 1) :
    ∃ front', Covers reported front' (compress before rest) [] := by
  induction rest generalizing before front with
  | nil => exact ⟨front, h⟩
  | cons x rest ih =>
    have hfront : front < 2 ^ 32 - 1 := by
      obtain ⟨bs, rfl⟩ := h.exists_cons
      rcases h.sound front List.mem_cons_self with hzero | hmem
      · omega
      · exact hbound front hmem
    obtain ⟨front', hpop⟩ := h.popFront_append hfront
    exact ih hpop

/-- `update_xid_rep` reports one more xid. -/
theorem updateXidRep {w : List ℕ} (h : Covers reported front w [])
    (hbound : ∀ y ∈ reported, y < 2 ^ 32 - 1) (hx : x < 2 ^ 32 - 1) :
    ∃ front', Covers (reported ++ [x]) front' (updateXidRep w x) [] := by
  obtain ⟨bs, rfl⟩ := h.exists_cons
  have hsorted := h.sorted
  have hrecorded := h.recorded
  have hsound := h.sound
  rw [List.append_nil] at hsorted hrecorded hsound
  have hack : ∀ y, 1 ≤ y → y ≤ front → y ∈ reported ++ [x] := fun y hpos hy =>
    List.mem_append_left _ (h.acknowledged y hpos hy)
  rw [Rpc.updateXidRep]
  split_ifs with hle
  · -- The xid was acknowledged before.
    refine ⟨front, rfl, h.sorted, hack, h.gap, fun y hy => ?_, fun y hy => ?_⟩
    · rcases List.mem_append.mp hy with hy | hy
      · exact h.recorded y hy
      · exact Or.inl (List.mem_singleton.mp hy ▸ hle)
    · exact (h.sound y hy).imp_right (List.mem_append_left _)
  · have hinsert : insertXid x (front :: bs) = front :: insertXid x bs := by
      rw [insertXid, if_neg (by omega)]
    have hstart : Covers (reported ++ [x]) front [front] (insertXid x bs) := by
      refine ⟨rfl, ?_, hack, by simp, fun y hy => ?_, fun y hy => ?_⟩
      · rw [List.singleton_append, ← hinsert]
        exact pairwise_insertXid hsorted
      · rw [List.singleton_append, ← hinsert, mem_insertXid]
        rcases List.mem_append.mp hy with hy | hy
        · exact (hrecorded y hy).imp_right Or.inr
        · exact Or.inr (Or.inl (List.mem_singleton.mp hy))
      · rw [List.singleton_append, ← hinsert, mem_insertXid] at hy
        rcases hy with rfl | hy
        · exact Or.inr (List.mem_append_right _ (List.mem_singleton.mpr rfl))
        · exact (hsound y hy).imp_right (List.mem_append_left _)
    rw [hinsert]
    refine hstart.compress fun y hy => ?_
    rcases List.mem_append.mp hy with hy | hy
    · exact hbound y hy
    · exact List.mem_singleton.mp hy ▸ hx

end Covers

/-- The window after any xids have been reported. -/
theorem covers_xidRepWindow {xids : List ℕ} (hbound : ∀ x ∈ xids, x < 2 ^ 32 - 1) :
    ∃ front, Covers xids front (xidRepWindow xids) [] := by
  induction xids using List.reverseRecOn with
  | nil => exact ⟨0, rfl, by simp [xidRepWindow], by omega, by simp [xidRepWindow], by simp,
      by simp [xidRepWindow]⟩
  | append_singleton xids x ih =>
    rw [List.forall_mem_append, List.forall_mem_singleton] at hbound
    obtain ⟨front, h⟩ := ih hbound.1
    rw [xidRepWindow, List.foldl_append]
    exact h.updateXidRep hbound.1 hbound.2

/-! ## The client -/

/-- `rpcc::caller`: a call that waits for its reply. -/
structure Caller where
  /-- The call has its answer. -/
  done : Bool
  /-- What the call returns, once it is done. -/
  intret : ℤ
  deriving DecidableEq, Repr

/-- The state of `rpcc` that `m_` protects, with what has happened so far. -/
structure Rpcc where
  /-- The xid of the next call. -/
  xid_ : ℕ
  /-- The client has the nonce of the server. -/
  bind_done_ : Bool
  /-- `cancel` waits for the calls to return. -/
  destroy_wait_ : Bool
  /-- The calls that have not returned. -/
  calls_ : Std.TreeMap ℕ Caller
  /-- The xids of finished calls. -/
  xid_rep_window_ : List ℕ
  /-- The request headers that were packed. -/
  packed : List Request
  /-- The xids of the replies that have come. -/
  replied : List ℕ
  /-- The xids given to `update_xid_rep`, in this order. -/
  reported : List ℕ

/-- What the threads of the client do under `m_`. -/
inductive RpccEvent where
  /-- `call1` gives the call an xid and packs its header. -/
  | call1 (proc : ℕ)
  /-- `got_pdu` gets a reply. -/
  | gotPdu (xid : ℕ) (ret : ℤ)
  /-- `call1` has a reply, or was told to stop, or the deadline is over. -/
  | returns (xid : ℕ)
  /-- `bind` has called the server. -/
  | bound
  /-- `cancel`, up to the wait for the calls. -/
  | cancel
  deriving DecidableEq, Repr

namespace Rpcc

/-- `rpc_const::bind`. -/
def bind : ℕ := 1

/-- `rpc_const::cancel_failure`. -/
def cancelFailure : ℤ := -7

/-- A new client. -/
def new : Rpcc := ⟨1, false, false, ∅, [0], [], [], []⟩

/-- A call of `update_xid_rep`. -/
def report (s : Rpcc) (xid : ℕ) : Rpcc :=
  { s with
    xid_rep_window_ := updateXidRep s.xid_rep_window_ xid
    reported := s.reported ++ [xid] }

/-- The first block of `rpcc::call1`. A call of a client that is not bound, or is bound twice, or is
about to be destroyed, returns at once. -/
def call1 (s : Rpcc) (proc : ℕ) : Rpcc :=
  if (proc ≠ bind ∧ s.bind_done_ = false) ∨ (proc = bind ∧ s.bind_done_ = true) then s
  else if s.destroy_wait_ then s
  else
    { s with
      xid_ := (s.xid_ + 1) % 2 ^ 32
      calls_ := s.calls_.insert s.xid_ ⟨false, 0⟩
      packed := ⟨s.xid_, s.xid_rep_window_.headD 0⟩ :: s.packed }

/-- `rpcc::got_pdu`, for a reply whose header could be read. -/
def gotPdu (s : Rpcc) (xid : ℕ) (ret : ℤ) : Rpcc :=
  let s := { s.report xid with replied := xid :: s.replied }
  match s.calls_[xid]? with
  | none => s
  | some ca => if ca.done then s else { s with calls_ := s.calls_.insert xid ⟨true, ret⟩ }

/-- The last block of `rpcc::call1`. -/
def returns (s : Rpcc) (xid : ℕ) : Option Rpcc :=
  if xid ∈ s.calls_ then some { s.report xid with calls_ := s.calls_.erase xid } else none

/-- `rpcc::cancel`. -/
def cancel (s : Rpcc) : Rpcc :=
  { s with
    calls_ := s.calls_.map fun _ _ => ⟨true, cancelFailure⟩
    destroy_wait_ := s.destroy_wait_ || !s.calls_.isEmpty }

/-- The state after an event. -/
def next (s : Rpcc) : RpccEvent → Option Rpcc
  | .call1 proc => some (s.call1 proc)
  | .gotPdu xid ret => some (s.gotPdu xid ret)
  | .returns xid => s.returns xid
  | .bound => some { s with bind_done_ := true }
  | .cancel => some s.cancel

end Rpcc

/-- A client whose threads are interleaved in any way. -/
def rpccSystem : System Rpcc RpccEvent := ⟨(· = Rpcc.new), Rpcc.next⟩

/-- The xids of an event are below `2^32 - 1`. -/
def XidBelow (s : Rpcc) : RpccEvent → Prop
  | .call1 _ => s.xid_ < 2 ^ 32 - 1
  | .gotPdu xid _ => xid < 2 ^ 32 - 1
  | .returns _ | .bound | .cancel => True

instance (s : Rpcc) : ∀ e, Decidable (XidBelow s e)
  | .call1 _ => inferInstanceAs (Decidable (s.xid_ < 2 ^ 32 - 1))
  | .gotPdu xid _ => inferInstanceAs (Decidable (xid < 2 ^ 32 - 1))
  | .returns _ | .bound | .cancel => isTrue trivial

/-- The invariant of the client. -/
structure RpccInv (s : Rpcc) : Prop where
  /-- The window is the one of the xids reported so far. -/
  window : s.xid_rep_window_ = xidRepWindow s.reported
  /-- They are below `2^32 - 1`. -/
  bound : ∀ x ∈ s.reported, x < 2 ^ 32 - 1
  /-- So are the xids of the calls, which were given out and are not `0`. -/
  issued : ∀ x ∈ s.calls_, 0 < x ∧ x < s.xid_ ∧ x < 2 ^ 32 - 1
  /-- The next xid is not `0`. -/
  pos : 0 < s.xid_
  /-- An xid is reported for a reply, or for a call that has returned. -/
  finished : ∀ x ∈ s.reported, x ∈ s.replied ∨ x < s.xid_ ∧ x ∉ s.calls_
  /-- The xids that a header acknowledges were reported. -/
  packed : ∀ h ∈ s.packed, ∀ y, 1 ≤ y → y ≤ h.xid_rep → y ∈ s.reported

namespace RpccInv

variable {s s' : Rpcc}

/-- One more xid is reported. -/
theorem report (h : RpccInv s) {xid : ℕ} (hxid : xid < 2 ^ 32 - 1) :
    (s.report xid).xid_rep_window_ = xidRepWindow (s.report xid).reported ∧
    (∀ x ∈ (s.report xid).reported, x < 2 ^ 32 - 1) ∧
    ∀ h ∈ s.packed, ∀ y, 1 ≤ y → y ≤ h.xid_rep → y ∈ (s.report xid).reported := by
  refine ⟨?_, ?_, fun r hr y hpos hy => List.mem_append_left _ (h.packed r hr y hpos hy)⟩
  · show updateXidRep s.xid_rep_window_ xid = xidRepWindow (s.reported ++ [xid])
    rw [h.window, xidRepWindow, xidRepWindow, List.foldl_append]
    rfl
  · rw [Rpcc.report, List.forall_mem_append, List.forall_mem_singleton]
    exact ⟨h.bound, hxid⟩

/-- The first block of `call1`. -/
theorem call1 (h : RpccInv s) {proc : ℕ} (hxid : s.xid_ < 2 ^ 32 - 1) :
    RpccInv (s.call1 proc) := by
  unfold Rpcc.call1
  split_ifs
  · exact h
  · exact h
  have hnext : (s.xid_ + 1) % 2 ^ 32 = s.xid_ + 1 := Nat.mod_eq_of_lt (by omega)
  refine ⟨h.window, h.bound, fun x hx => ?_, ?_, fun x hx => ?_, fun r hr y hpos hy => ?_⟩
  · dsimp only at hx ⊢
    rw [hnext]
    rcases Std.TreeMap.mem_insert.mp hx with heq | hmem
    · have := h.pos
      rw [Std.LawfulEqCmp.compare_eq_iff_eq] at heq
      omega
    · have := h.issued x hmem
      omega
  · dsimp only
    rw [hnext]
    omega
  · dsimp only
    rw [hnext]
    refine (h.finished x hx).imp_right fun hx => ⟨by omega, fun hmem => ?_⟩
    rcases Std.TreeMap.mem_insert.mp hmem with heq | hmem
    · rw [Std.LawfulEqCmp.compare_eq_iff_eq] at heq
      omega
    · exact hx.2 hmem
  · rcases List.mem_cons.mp hr with rfl | hr
    · obtain ⟨front, hcovers⟩ := covers_xidRepWindow h.bound
      dsimp only at hy
      rw [h.window, List.headD_eq_head?_getD, hcovers.head, Option.getD_some] at hy
      exact hcovers.acknowledged y hpos hy
    · exact h.packed r hr y hpos hy

/-- A reply comes. -/
theorem gotPdu (h : RpccInv s) {xid : ℕ} {ret : ℤ} (hxid : xid < 2 ^ 32 - 1) :
    RpccInv (s.gotPdu xid ret) := by
  obtain ⟨hwindow, hbound, hpacked⟩ := h.report hxid
  have hfinished : ∀ x ∈ (s.report xid).reported, x ∈ xid :: s.replied ∨ x < s.xid_ ∧
      x ∉ s.calls_ := by
    rw [Rpcc.report, List.forall_mem_append, List.forall_mem_singleton]
    exact ⟨fun x hx => (h.finished x hx).imp_left (List.mem_cons_of_mem _),
      Or.inl List.mem_cons_self⟩
  unfold Rpcc.gotPdu
  dsimp only
  cases hca : (s.report xid).calls_[xid]? with
  | none => exact ⟨hwindow, hbound, h.issued, h.pos, hfinished, hpacked⟩
  | some ca =>
    dsimp only
    split_ifs
    · exact ⟨hwindow, hbound, h.issued, h.pos, hfinished, hpacked⟩
    · have hmem : ∀ x, x ∈ s.calls_.insert xid ⟨true, ret⟩ ↔ x ∈ s.calls_ := fun x => by
        rw [Std.TreeMap.mem_insert, Std.LawfulEqCmp.compare_eq_iff_eq]
        refine ⟨fun hx => hx.elim (fun heq => ?_) id, Or.inr⟩
        rw [← heq]
        exact Std.TreeMap.isSome_getElem?_iff_mem.mp (Option.isSome_iff_exists.mpr ⟨ca, hca⟩)
      refine ⟨hwindow, hbound, fun x hx => h.issued x ((hmem x).mp hx), h.pos, fun x hx => ?_,
        hpacked⟩
      exact (hfinished x hx).imp_right fun hx => ⟨hx.1, fun hin => hx.2 ((hmem x).mp hin)⟩

/-- A call returns. -/
theorem returns (h : RpccInv s) {xid : ℕ} (hstep : s.returns xid = some s') : RpccInv s' := by
  unfold Rpcc.returns at hstep
  split_ifs at hstep with hcall
  obtain rfl := Option.some.inj hstep
  obtain ⟨-, hlt, hxid⟩ := h.issued xid hcall
  obtain ⟨hwindow, hbound, hpacked⟩ := h.report hxid
  refine ⟨hwindow, hbound, fun x hx => h.issued x (Std.TreeMap.mem_of_mem_erase hx), h.pos, ?_,
    hpacked⟩
  show ∀ x ∈ s.reported ++ [xid], x ∈ s.replied ∨ x < s.xid_ ∧ x ∉ s.calls_.erase xid
  rw [List.forall_mem_append, List.forall_mem_singleton]
  refine ⟨fun x hx => ?_, Or.inr ⟨hlt, by simp⟩⟩
  exact (h.finished x hx).imp_right fun hx =>
    ⟨hx.1, fun hmem => hx.2 (Std.TreeMap.mem_of_mem_erase hmem)⟩

/-- Every event. -/
theorem next (h : RpccInv s) {e : RpccEvent} (hG : XidBelow s e) (hstep : s.next e = some s') :
    RpccInv s' := by
  cases e with
  | call1 proc =>
    obtain rfl := Option.some.inj hstep
    exact h.call1 hG
  | gotPdu xid ret =>
    obtain rfl := Option.some.inj hstep
    exact h.gotPdu hG
  | returns xid => exact h.returns hstep
  | bound =>
    obtain rfl := Option.some.inj hstep
    exact { h with }
  | cancel =>
    obtain rfl := Option.some.inj hstep
    have hmem : ∀ x, x ∈ s.cancel.calls_ ↔ x ∈ s.calls_ := fun x => Std.TreeMap.mem_map
    exact ⟨h.window, h.bound, fun x hx => h.issued x ((hmem x).mp hx), h.pos, fun x hx =>
      (h.finished x hx).imp_right fun hx => ⟨hx.1, fun hin => hx.2 ((hmem x).mp hin)⟩, h.packed⟩

end RpccInv

/-- The invariant holds in every reachable state. -/
theorem rpccInv_of_reachable {s : Rpcc} (h : rpccSystem.Reachable XidBelow s) : RpccInv s := by
  refine h.invariant (I := RpccInv) (fun s hinit => ?_) fun _ _ _ hI hG hstep => hI.next hG hstep
  obtain rfl : s = Rpcc.new := hinit
  exact ⟨rfl, by simp [Rpcc.new], by simp [Rpcc.new], Nat.one_pos, by simp [Rpcc.new],
    by simp [Rpcc.new]⟩

/-- After any xids below `2^32 - 1` were reported, the window is sorted, and its front is the
largest number up to which all xids were reported. In every state of the client, no header that was
packed acknowledges a call that has not returned and whose reply has not come. -/
theorem xid_rep_acknowledged :
    (∀ xids : List ℕ, (∀ x ∈ xids, x < 2 ^ 32 - 1) →
      (xidRepWindow xids).Pairwise (· ≤ ·) ∧
      ∃ front, (xidRepWindow xids).head? = some front ∧
        IsGreatest {r | ∀ y, 1 ≤ y → y ≤ r → y ∈ xids} front) ∧
    ∀ s, rpccSystem.Reachable XidBelow s → s.xid_rep_window_ = xidRepWindow s.reported ∧
      ∀ h ∈ s.packed, ∀ x ∈ s.calls_, x ∉ s.replied → h.xid_rep < x := by
  constructor
  · intro xids hbound
    obtain ⟨front, h⟩ := covers_xidRepWindow hbound
    have hsorted := h.sorted
    rw [List.append_nil] at hsorted
    refine ⟨hsorted, front, h.head, h.acknowledged, fun r hr => ?_⟩
    by_contra hlt
    -- The successor of the front would have been reported, and is not in the window.
    rcases h.recorded (front + 1) (hr (front + 1) (by omega) (by omega)) with hle | hmem
    · omega
    · rw [List.append_nil] at hmem
      exact h.gap hmem
  · intro s hreachable
    have hinv := rpccInv_of_reachable hreachable
    refine ⟨hinv.window, fun r hr x hx hreplied => ?_⟩
    by_contra hle
    have hreported := hinv.packed r hr x (hinv.issued x hx).1 (not_lt.mp hle)
    rcases hinv.finished x hreported with hmem | hreturned
    · exact hreplied hmem
    · exact hreturned.2 hx

/-- Four calls: the reply to the second one has come, and the first one was given up. The header of
the fourth one acknowledges both, and not the third one. -/
theorem xid_rep_acknowledged_four_calls : ∃ s, rpccSystem.Reachable XidBelow s ∧
    s.packed.head? = some ⟨4, 2⟩ ∧ 3 ∈ s.calls_ ∧ ∀ x ∈ s.calls_, x ∉ s.replied → 2 < x := by
  have hrun : (rpccSystem.execGuarded XidBelow Rpcc.new
      [.bound, .call1 2, .call1 2, .call1 2, .gotPdu 2 0, .returns 1, .call1 2]).map
      (fun s => (s.packed.head?, s.calls_.contains 3)) = some (some ⟨4, 2⟩, true) := by
    decide
  obtain ⟨s, hexec, hval⟩ := Option.map_eq_some_iff.mp hrun
  simp only [Prod.mk.injEq] at hval
  have hreachable := System.Reachable.of_execGuarded hexec rfl
  have hpacked := (xid_rep_acknowledged.2 s hreachable).2 ⟨4, 2⟩ (List.mem_of_head? hval.1)
  exact ⟨s, hreachable, hval.1, hval.2, hpacked⟩

end SimpleDfs.Rpc
