import SimpleDfs.Base.Count
import SimpleDfs.Base.System

/-!
# Handles for connections

`handle.cc` keeps one `hinfo` for each node, with the connection to it and the number of the handles
that point to it. An `hinfo` that is no longer wanted is marked with `del`, and whoever destroys the
last handle frees it. The mark is set by a `safebind` that cannot bind, which has only the mutex of
the `hinfo`, and by `delete_handle`. Both set it only while there is a handle: `safebind` is called
for one, and without handles `delete_handle` frees the `hinfo` at once.

The functions of `handle_mgr` run under its mutex, so each of them is one step. A `safebind` is two
steps, since other threads run while it binds. A `hinfo` that was freed may be allocated again at
the same address; to read or write one that is not allocated is a `fault`.
-/

namespace SimpleDfs.Rpc

/-- The address of an `hinfo`. -/
abbrev HInfoPtr := ℕ

/-- An object of class `handle`. -/
abbrev HandleId := ℕ

/-- `struct hinfo`, where `κ` has the objects of class `rpcc`. -/
structure HInfo (κ : Type) where
  /-- The connection, when it is bound. -/
  cl : Option κ
  /-- The number of handles. -/
  refcnt : ℤ
  /-- The `hinfo` is not given out any more. -/
  del : Bool
  /-- The node. -/
  m : String
  /-- The handle whose `safebind` has the mutex. -/
  cl_mutex : Option HandleId
  deriving DecidableEq, Repr

/-- `handle_mgr`, and the `hinfo` that are allocated. -/
structure HandleMgr (κ : Type) where
  /-- The `hinfo` of each node. -/
  hmap : String → Option HInfoPtr
  /-- What is at each address, when it is allocated. -/
  heap : HInfoPtr → Option (HInfo κ)

namespace HandleMgr

variable {κ : Type}

/-- An `hinfo` is written. -/
def set (mgr : HandleMgr κ) (h : HInfoPtr) (info : HInfo κ) : HandleMgr κ :=
  { mgr with heap := Function.update mgr.heap h (some info) }

/-- `handle_mgr::get_handle`. A new `hinfo` is allocated at the address `new`. -/
def getHandle (mgr : HandleMgr κ) (m : String) (new : HInfoPtr) :
    Option (Option HInfoPtr × HandleMgr κ) :=
  match mgr.hmap m with
  | none => some (some new,
      { hmap := Function.update mgr.hmap m (some new)
        heap := Function.update mgr.heap new (some ⟨none, 1, false, m, none⟩) })
  | some h => (mgr.heap h).map fun info =>
    -- The caller gets NULL until the last of the old handles is gone.
    if info.del then (none, mgr)
    else (some h, mgr.set h { info with refcnt := info.refcnt + 1 })

/-- `handle_mgr::delete_handle_wo`. -/
def deleteHandleWo (mgr : HandleMgr κ) (m : String) : Option (HandleMgr κ) :=
  match mgr.hmap m with
  | none => some mgr
  | some h => (mgr.heap h).map fun info =>
    -- The connection is cancelled and deleted with the `hinfo`.
    if info.refcnt = 0 then
      { hmap := Function.update mgr.hmap m none, heap := Function.update mgr.heap h none }
    else mgr.set h { info with del := true }

/-- `handle_mgr::delete_handle`. -/
def deleteHandle (mgr : HandleMgr κ) (m : String) : Option (HandleMgr κ) := mgr.deleteHandleWo m

/-- `handle_mgr::done_handle`. -/
def doneHandle (mgr : HandleMgr κ) (h : HInfoPtr) : Option (HandleMgr κ) :=
  (mgr.heap h).bind fun info =>
    let mgr := mgr.set h { info with refcnt := info.refcnt - 1 }
    if info.refcnt - 1 = 0 ∧ info.del then mgr.deleteHandleWo info.m else some mgr

variable {mgr : HandleMgr κ} {m : String} {p : HInfoPtr} {info : HInfo κ}

/-- `get_handle` for a node that has no `hinfo`. -/
theorem getHandle_of_none (hm : mgr.hmap m = none) (new : HInfoPtr) : mgr.getHandle m new =
    some (some new, ⟨Function.update mgr.hmap m (some new),
      Function.update mgr.heap new (some ⟨none, 1, false, m, none⟩)⟩) := by
  rw [getHandle, hm]

/-- `get_handle` for a node that has an `hinfo`. -/
theorem getHandle_of_some (hm : mgr.hmap m = some p) (hp : mgr.heap p = some info)
    (new : HInfoPtr) : mgr.getHandle m new = some (if info.del then (none, mgr)
      else (some p, mgr.set p { info with refcnt := info.refcnt + 1 })) := by
  rw [getHandle, hm]
  exact congrArg (Option.map _) hp

/-- `delete_handle_wo` for a node that has an `hinfo`. -/
theorem deleteHandleWo_of_some (hm : mgr.hmap m = some p) (hp : mgr.heap p = some info) :
    mgr.deleteHandleWo m = some (if info.refcnt = 0 then
      ⟨Function.update mgr.hmap m none, Function.update mgr.heap p none⟩
      else mgr.set p { info with del := true }) := by
  rw [deleteHandleWo, hm]
  exact congrArg (Option.map _) hp

/-- `done_handle`, when the `hinfo` is in `hmap` under its name. -/
theorem doneHandle_of_some (hm : mgr.hmap info.m = some p) (hp : mgr.heap p = some info) :
    mgr.doneHandle p = some (if info.refcnt - 1 = 0 ∧ info.del then
      ⟨Function.update mgr.hmap info.m none, Function.update mgr.heap p none⟩
      else mgr.set p { info with refcnt := info.refcnt - 1 }) := by
  rw [doneHandle, hp, Option.bind_some]
  dsimp only
  split_ifs with hlast
  · have hself : (mgr.set p { info with refcnt := info.refcnt - 1 }).heap p =
        some { info with refcnt := info.refcnt - 1 } := Function.update_self _ _ _
    have hname : (mgr.set p { info with refcnt := info.refcnt - 1 }).hmap info.m = some p := hm
    rw [deleteHandleWo_of_some hname hself, if_pos hlast.1]
    simp only [set, Function.update_idem]
  · rfl

end HandleMgr

/-- The handles of a program, and `mgr`. -/
structure Handles (κ : Type) where
  /-- `mgr`. -/
  mgr : HandleMgr κ
  /-- The `h` of each handle that is alive. -/
  handles : HandleId → Option (Option HInfoPtr)
  /-- Memory that is not allocated was used. -/
  fault : Bool

/-- What the threads do. -/
inductive HandleEvent (κ : Type) where
  /-- A handle for a node is constructed. The address is for a new `hinfo`. -/
  | construct (id : HandleId) (m : String) (new : HInfoPtr)
  /-- `safebind` gets the mutex, and returns at once or starts to bind. -/
  | safebind (id : HandleId)
  /-- `bind` of a new connection returns, with `none` for a failure, and so does `safebind`. -/
  | bound (id : HandleId) (cl : Option κ)
  /-- The handle is destroyed. -/
  | destroy (id : HandleId)
  /-- `handle_mgr::delete_handle`. -/
  | deleteHandle (m : String)
  deriving DecidableEq, Repr

namespace Handles

variable {κ : Type}

/-- Memory is used. -/
def access {α : Type} (s : Handles κ) (result : Option α) (next : α → Handles κ) : Handles κ :=
  match result with
  | none => { s with fault := true }
  | some a => next a

/-- What `safebind` does with the `hinfo` when it has the mutex. -/
def bindStart (id : HandleId) (info : HInfo κ) : HInfo κ :=
  if info.del then info
  else if info.cl.isSome then info
  else { info with cl_mutex := some id }

/-- What `safebind` does with the `hinfo` when `bind` has returned. -/
def bindEnd (cl : Option κ) (info : HInfo κ) : HInfo κ :=
  match cl with
  | none => { info with del := true, cl_mutex := none }
  | some cl => { info with cl := some cl, cl_mutex := none }

/-- A `safebind` of the handle is binding. -/
def binding (s : Handles κ) (id : HandleId) (h : HInfoPtr) : Bool :=
  (s.mgr.heap h).any fun info => info.cl_mutex == some id

/-- The state after an event. A handle is not destroyed in its own `safebind`. -/
def step (s : Handles κ) : HandleEvent κ → Option (Handles κ)
  | .construct id m new =>
    if s.handles id = none ∧ (s.mgr.heap new).isNone then
      some (s.access (s.mgr.getHandle m new) fun got =>
        { s with mgr := got.2, handles := Function.update s.handles id (some got.1) })
    else none
  | .safebind id =>
    match s.handles id with
    | none => none
    | some none => some s
    | some (some h) =>
      match s.mgr.heap h with
      | none => some { s with fault := true }
      | some info =>
        -- It waits while another `safebind` for the node binds.
        if info.cl_mutex.isSome then none
        else some { s with mgr := s.mgr.set h (bindStart id info) }
  | .bound id cl =>
    match s.handles id with
    | none | some none => none
    | some (some h) =>
      match s.mgr.heap h with
      | none => some { s with fault := true }
      | some info =>
        if info.cl_mutex = some id then some { s with mgr := s.mgr.set h (bindEnd cl info) }
        else none
  | .destroy id =>
    match s.handles id with
    | none => none
    | some none => some { s with handles := Function.update s.handles id none }
    | some (some h) =>
      if s.binding id h then none
      else some (s.access (s.mgr.doneHandle h) fun mgr =>
        { s with mgr := mgr, handles := Function.update s.handles id none })
  | .deleteHandle m =>
    some (s.access (s.mgr.deleteHandle m) fun mgr => { s with mgr := mgr })

/-- The constructor of `mgr` has run. -/
def start : Handles κ := ⟨⟨fun _ => none, fun _ => none⟩, fun _ => none, false⟩

/-- The runs of a program that uses handles. -/
def system (κ : Type) : System (Handles κ) (HandleEvent κ) where
  init s := s = start
  step := step

end Handles

/-- The number of handles that point to the `hinfo`. -/
noncomputable def handleCount (handles : HandleId → Option (Option HInfoPtr)) (p : HInfoPtr) : ℕ :=
  countAt (· = some (some p)) handles

/-! ## The invariant -/

/-- An `hinfo` at the address `p` goes with the handles. -/
structure HInfo.Counted {κ : Type} (handles : HandleId → Option (Option HInfoPtr)) (p : HInfoPtr)
    (info : HInfo κ) : Prop where
  /-- Finitely many handles point to it. -/
  finite : {id | handles id = some (some p)}.Finite
  /-- The number of them. -/
  refcnt : info.refcnt = handleCount handles p
  /-- Without a handle it would have been freed. -/
  del : info.del = true → info.refcnt ≠ 0
  /-- The handle that binds points to it. -/
  cl_mutex : ∀ id, info.cl_mutex = some id → handles id = some (some p)

/-- The `hinfo` that are allocated are those in `hmap`, and go with the handles. -/
structure Handles.Inv {κ : Type} (s : Handles κ) : Prop where
  /-- No other memory was used. -/
  fault : s.fault = false
  /-- An `hinfo` is in `hmap` under its name. -/
  named : ∀ p info, s.mgr.heap p = some info → s.mgr.hmap info.m = some p
  /-- What is in `hmap` is allocated. -/
  mapped : ∀ m p, s.mgr.hmap m = some p → ∃ info, s.mgr.heap p = some info ∧ info.m = m
  /-- What a handle points to is allocated. -/
  live : ∀ id p, s.handles id = some (some p) → ∃ info, s.mgr.heap p = some info
  /-- The `hinfo` go with the handles. -/
  counted : ∀ p info, s.mgr.heap p = some info → info.Counted s.handles p

namespace HInfo

variable {κ : Type} {handles handles' : HandleId → Option (Option HInfoPtr)} {p : HInfoPtr}
  {info info' : HInfo κ} {id : HandleId}

/-- The same handles point to the `hinfo`. -/
theorem Counted.congr (h : info.Counted handles p)
    (hsame : ∀ id, handles' id = some (some p) ↔ handles id = some (some p)) :
    info.Counted handles' p where
  finite := by
    have hset : {id | handles' id = some (some p)} = {id | handles id = some (some p)} :=
      Set.ext hsame
    rw [hset]
    exact h.finite
  refcnt := by
    rw [h.refcnt]
    exact congrArg Nat.cast (countAt_congr hsame).symm
  del := h.del
  cl_mutex id hid := (hsame id).mpr (h.cl_mutex id hid)

/-- A handle that did not point to the `hinfo` and does not now. -/
theorem update_iff {v : Option (Option HInfoPtr)} (hold : handles id ≠ some (some p))
    (hnew : v ≠ some (some p)) (id' : HandleId) :
    Function.update handles id v id' = some (some p) ↔ handles id' = some (some p) := by
  by_cases hid : id' = id
  · rw [hid, Function.update_self]
    exact ⟨fun h => absurd h hnew, fun h => absurd h hold⟩
  · rw [Function.update_of_ne hid]

/-- Nothing is counted, so no handle points to the `hinfo`. -/
theorem ne_of_count_eq_zero (hfinite : {id | handles id = some (some p)}.Finite)
    (hcount : handleCount handles p = 0) (id : HandleId) : handles id ≠ some (some p) := by
  intro hid
  have hpos : 0 < handleCount handles p := countAt_pos (p := (· = some (some p))) hfinite hid
  omega

/-- A handle points to the `hinfo`, so it is counted. -/
theorem Counted.refcnt_ne_zero (h : info.Counted handles p) (hid : handles id = some (some p)) :
    info.refcnt ≠ 0 := by
  intro hzero
  have hcount : handleCount handles p = 0 := by
    have hrefcnt := h.refcnt
    omega
  exact ne_of_count_eq_zero h.finite hcount id hid

/-- The `hinfo` counts something, so a handle points to it. -/
theorem Counted.exists_handle (h : info.Counted handles p) (hrefcnt : info.refcnt ≠ 0) :
    ∃ id, handles id = some (some p) := by
  by_contra hnone
  have hcount : handleCount handles p = 0 :=
    countAt_eq_zero (p := (· = some (some p))) (not_exists.mp hnone)
  apply hrefcnt
  rw [h.refcnt, hcount]
  rfl

/-- A handle is constructed that points to the `hinfo`. -/
theorem Counted.construct (h : info.Counted handles p) (hdel : info.del = false)
    (hid : handles id = none) : { info with refcnt := info.refcnt + 1 : HInfo κ }.Counted
      (Function.update handles id (some (some p))) p where
  finite := finite_update (p := (· = some (some p))) h.finite id (some (some p))
  refcnt := by
    have hcount := countAt_update (p := (· = some (some p))) h.finite id (some (some p))
    rw [hid, if_neg nofun, if_pos rfl] at hcount
    have hrefcnt := h.refcnt
    show info.refcnt + 1 = (countAt (· = some (some p)) _ : ℤ)
    unfold handleCount at hrefcnt
    omega
  del hdel' := by cases hdel.symm.trans hdel'
  cl_mutex id' hid' := by
    have hbinds := h.cl_mutex id' hid'
    have hne : id' ≠ id := by
      rintro rfl
      cases hid.symm.trans hbinds
    rw [Function.update_of_ne hne, hbinds]

/-- The number of handles when one is destroyed that pointed to the `hinfo`. -/
theorem Counted.count_destroy (h : info.Counted handles p) (hid : handles id = some (some p)) :
    info.refcnt - 1 = handleCount (Function.update handles id none) p := by
  have hcount := countAt_update (p := (· = some (some p))) h.finite id none
  rw [if_pos hid, if_neg nofun] at hcount
  have hrefcnt := h.refcnt
  unfold handleCount at hrefcnt ⊢
  omega

/-- A handle is destroyed that pointed to the `hinfo`, and was not the last one if the `hinfo` is to
be deleted. -/
theorem Counted.destroy (h : info.Counted handles p) (hid : handles id = some (some p))
    (hidle : info.cl_mutex ≠ some id) (hlast : ¬ (info.refcnt - 1 = 0 ∧ info.del = true)) :
    { info with refcnt := info.refcnt - 1 : HInfo κ }.Counted
      (Function.update handles id none) p where
  finite := finite_update (p := (· = some (some p))) h.finite id none
  refcnt := h.count_destroy hid
  del hdel hzero := hlast ⟨hzero, hdel⟩
  cl_mutex id' hid' := by
    have hne : id' ≠ id := by
      rintro rfl
      exact hidle hid'
    rw [Function.update_of_ne hne]
    exact h.cl_mutex id' hid'

end HInfo

namespace Handles.Inv

variable {κ : Type} {s : Handles κ} {handles' : HandleId → Option (Option HInfoPtr)}
  {p : HInfoPtr} {info info' : HInfo κ} {id : HandleId}

/-- An `hinfo` is put at an address and in `hmap`, where no other one of that name is in `hmap` and
no other name is at the address, and only handles for it come or go. -/
theorem put (h : s.Inv) (info : HInfo κ) (hfree : ∀ q, s.mgr.hmap info.m = some q → q = p)
    (hold : ∀ i, s.mgr.heap p = some i → i.m = info.m)
    (hothers : ∀ q, q ≠ p → ∀ id, handles' id = some (some q) ↔ s.handles id = some (some q))
    (hcounted : info.Counted handles' p) :
    Inv { s with
      mgr := ⟨Function.update s.mgr.hmap info.m (some p), Function.update s.mgr.heap p (some info)⟩
      handles := handles' } := by
  have hself : Function.update s.mgr.heap p (some info) p = some info :=
    Function.update_self _ _ _
  have hne : ∀ q, q ≠ p → Function.update s.mgr.heap p (some info) q = s.mgr.heap q :=
    fun q hq => Function.update_of_ne hq _ _
  refine ⟨h.fault, fun q i hq => ?_, fun m q hmap => ?_, fun id q hid => ?_, fun q i hq => ?_⟩
  · change Function.update s.mgr.hmap info.m (some p) i.m = some q
    by_cases hqp : q = p
    · subst hqp
      rw [← Option.some.inj (hself.symm.trans hq), Function.update_self]
    · have hmap := h.named q i ((hne q hqp).symm.trans hq)
      have hother : i.m ≠ info.m := by
        intro hother
        rw [hother] at hmap
        exact hqp (hfree q hmap)
      rw [Function.update_of_ne hother, hmap]
  · change Function.update s.mgr.hmap info.m (some p) m = some q at hmap
    by_cases hm : m = info.m
    · rw [hm, Function.update_self] at hmap
      rw [← Option.some.inj hmap, hm]
      exact ⟨info, hself, rfl⟩
    · rw [Function.update_of_ne hm] at hmap
      obtain ⟨i, hi, him⟩ := h.mapped m q hmap
      have hqp : q ≠ p := by
        rintro rfl
        exact hm (him.symm.trans (hold i hi))
      exact ⟨i, (hne q hqp).trans hi, him⟩
  · by_cases hqp : q = p
    · rw [hqp]
      exact ⟨info, hself⟩
    · obtain ⟨i, hi⟩ := h.live id q ((hothers q hqp id).mp hid)
      exact ⟨i, (hne q hqp).trans hi⟩
  · by_cases hqp : q = p
    · subst hqp
      rw [← Option.some.inj (hself.symm.trans hq)]
      exact hcounted
    · exact (h.counted q i ((hne q hqp).symm.trans hq)).congr (hothers q hqp)

/-- An `hinfo` is written that is allocated. -/
theorem set (h : s.Inv) (hp : s.mgr.heap p = some info) (hm : info'.m = info.m)
    (hothers : ∀ q, q ≠ p → ∀ id, handles' id = some (some q) ↔ s.handles id = some (some q))
    (hcounted : info'.Counted handles' p) :
    Inv { s with mgr := s.mgr.set p info', handles := handles' } := by
  have hmap : s.mgr.hmap info'.m = some p := by
    rw [hm]
    exact h.named p info hp
  have hset : s.mgr.set p info' =
      ⟨Function.update s.mgr.hmap info'.m (some p), Function.update s.mgr.heap p (some info')⟩ := by
    rw [← hmap, Function.update_eq_self]
    rfl
  rw [hset]
  refine h.put info' (fun q hq => ?_) (fun i hi => ?_) hothers hcounted
  · exact Option.some.inj (hq.symm.trans hmap)
  · rw [hm, Option.some.inj (hi.symm.trans hp)]

/-- An `hinfo` is freed when no handle points to it any more. -/
theorem free (h : s.Inv) (hp : s.mgr.heap p = some info)
    (hothers : ∀ q, q ≠ p → ∀ id, handles' id = some (some q) ↔ s.handles id = some (some q))
    (hnone : ∀ id, handles' id ≠ some (some p)) :
    Inv { s with
      mgr := ⟨Function.update s.mgr.hmap info.m none, Function.update s.mgr.heap p none⟩
      handles := handles' } := by
  -- What is still allocated is at another address, and has another name.
  have hkept : ∀ q i, Function.update s.mgr.heap p none q = some i →
      q ≠ p ∧ s.mgr.heap q = some i := by
    intro q i hq
    by_cases hqp : q = p
    · rw [hqp, Function.update_self] at hq
      cases hq
    · rw [Function.update_of_ne hqp] at hq
      exact ⟨hqp, hq⟩
  refine ⟨h.fault, fun q i hq => ?_, fun m q hmap => ?_, fun id q hid => ?_, fun q i hq => ?_⟩
  · obtain ⟨hqp, hi⟩ := hkept q i hq
    have hmap := h.named q i hi
    have hname : i.m ≠ info.m := by
      -- Two `hinfo` of one name would be at one address.
      intro hname
      rw [hname, h.named p info hp] at hmap
      exact hqp (Option.some.inj hmap).symm
    exact (Function.update_of_ne hname _ _).trans hmap
  · change Function.update s.mgr.hmap info.m none m = some q at hmap
    have hname : m ≠ info.m := by
      rintro rfl
      rw [Function.update_self] at hmap
      cases hmap
    rw [Function.update_of_ne hname] at hmap
    obtain ⟨i, hi, him⟩ := h.mapped m q hmap
    have hqp : q ≠ p := by
      rintro rfl
      rw [hp] at hi
      exact hname (him.symm.trans (congrArg HInfo.m (Option.some.inj hi)).symm)
    exact ⟨i, (Function.update_of_ne hqp _ _).trans hi, him⟩
  · have hqp : q ≠ p := by
      rintro rfl
      exact hnone id hid
    obtain ⟨i, hi⟩ := h.live id q ((hothers q hqp id).mp hid)
    exact ⟨i, (Function.update_of_ne hqp _ _).trans hi⟩
  · obtain ⟨hqp, hi⟩ := hkept q i hq
    exact (h.counted q i hi).congr (hothers q hqp)

/-- The same handles point to each `hinfo`. -/
theorem keep (h : s.Inv)
    (hsame : ∀ q id, handles' id = some (some q) ↔ s.handles id = some (some q)) :
    Inv { s with handles := handles' } :=
  { h with
    live := fun id q hid => h.live id q ((hsame q id).mp hid)
    counted := fun q i hq => (h.counted q i hq).congr (hsame q) }

/-- `handle::handle`. -/
theorem construct (h : s.Inv) (hid : s.handles id = none) (m : String) {new : HInfoPtr}
    (hnew : s.mgr.heap new = none) :
    Inv (s.access (s.mgr.getHandle m new) fun got =>
      { s with mgr := got.2, handles := Function.update s.handles id (some got.1) }) := by
  have hold : ∀ q, s.handles id ≠ some (some q) := by
    intro q hq
    cases hid.symm.trans hq
  have hothers : ∀ p q, q ≠ p → ∀ id', Function.update s.handles id (some (some p)) id' =
      some (some q) ↔ s.handles id' = some (some q) := fun p q hq =>
    HInfo.update_iff (hold q) fun h => hq (Option.some.inj (Option.some.inj h)).symm
  cases hm : s.mgr.hmap m with
  | none =>
    rw [HandleMgr.getHandle_of_none hm]
    -- Before it is constructed no handle points to the new address.
    have hnone : ∀ id', s.handles id' ≠ some (some new) := by
      intro id' hid'
      obtain ⟨i, hi⟩ := h.live id' new hid'
      cases hnew.symm.trans hi
    have hempty : (⟨none, 0, false, m, none⟩ : HInfo κ).Counted s.handles new := by
      refine ⟨?_, ?_, nofun, nofun⟩
      · rw [Set.eq_empty_of_forall_notMem hnone]
        exact Set.finite_empty
      · exact congrArg Nat.cast (countAt_eq_zero (p := (· = some (some new))) hnone).symm
    refine h.put ⟨none, 1, false, m, none⟩ (fun q hq => ?_) (fun i hi => ?_) (hothers new)
      (hempty.construct rfl hid)
    · cases hm.symm.trans hq
    · cases hnew.symm.trans hi
  | some p =>
    obtain ⟨info, hp, -⟩ := h.mapped m p hm
    rw [HandleMgr.getHandle_of_some hm hp]
    by_cases hdel : info.del = true
    · rw [if_pos hdel]
      exact h.keep fun q => HInfo.update_iff (hold q) nofun
    · rw [if_neg hdel]
      exact h.set hp rfl (hothers p)
        ((h.counted p info hp).construct (Bool.eq_false_iff.mpr hdel) hid)

/-- `handle::~handle`. -/
theorem destroy (h : s.Inv) (hid : s.handles id = some (some p)) (hidle : s.binding id p = false) :
    Inv (s.access (s.mgr.doneHandle p) fun mgr =>
      { s with mgr := mgr, handles := Function.update s.handles id none }) := by
  obtain ⟨info, hp⟩ := h.live id p hid
  have hcounted := h.counted p info hp
  have hmutex : info.cl_mutex ≠ some id := by
    intro hmutex
    rw [binding, hp, Option.any_some, hmutex] at hidle
    simp at hidle
  have hothers : ∀ q, q ≠ p → ∀ id', Function.update s.handles id none id' = some (some q) ↔
      s.handles id' = some (some q) := by
    intro q hq
    refine HInfo.update_iff (fun h => ?_) nofun
    exact hq (Option.some.inj (Option.some.inj (hid.symm.trans h))).symm
  rw [HandleMgr.doneHandle_of_some (h.named p info hp) hp]
  -- The last handle of a marked `hinfo` frees it, any other one is only taken from the count.
  by_cases hlast : info.refcnt - 1 = 0 ∧ info.del = true
  · rw [if_pos hlast]
    refine h.free hp hothers (HInfo.ne_of_count_eq_zero ?_ ?_)
    · exact finite_update (p := (· = some (some p))) hcounted.finite id none
    · have hcount := hcounted.count_destroy hid
      omega
  · rw [if_neg hlast]
    exact h.set hp rfl hothers (hcounted.destroy hid hmutex hlast)

/-- `handle_mgr::delete_handle`. -/
theorem deleteHandle (h : s.Inv) (m : String) :
    Inv (s.access (s.mgr.deleteHandle m) fun mgr => { s with mgr := mgr }) := by
  unfold HandleMgr.deleteHandle
  cases hm : s.mgr.hmap m with
  | none =>
    rw [HandleMgr.deleteHandleWo, hm]
    exact h
  | some p =>
    obtain ⟨info, hp, rfl⟩ := h.mapped m p hm
    have hcounted := h.counted p info hp
    rw [HandleMgr.deleteHandleWo_of_some hm hp]
    -- Without handles it is freed here, so that a marked `hinfo` always has a handle.
    by_cases hzero : info.refcnt = 0
    · rw [if_pos hzero]
      refine h.free hp (fun _ _ _ => Iff.rfl) (HInfo.ne_of_count_eq_zero hcounted.finite ?_)
      have hrefcnt := hcounted.refcnt
      omega
    · rw [if_neg hzero]
      exact h.set hp rfl (fun _ _ _ => Iff.rfl)
        { hcounted with del := fun _ => hzero }

/-- `handle::safebind` gets the mutex. -/
theorem safebind (h : s.Inv) (hid : s.handles id = some (some p)) (hp : s.mgr.heap p = some info) :
    Inv { s with mgr := s.mgr.set p (bindStart id info) } := by
  have hcounted := h.counted p info hp
  unfold bindStart
  split_ifs
  · exact h.set hp rfl (fun _ _ _ => Iff.rfl) hcounted
  · exact h.set hp rfl (fun _ _ _ => Iff.rfl) hcounted
  · refine h.set hp rfl (fun _ _ _ => Iff.rfl) { hcounted with cl_mutex := fun id' hid' => ?_ }
    rw [← Option.some.inj hid']
    exact hid

/-- `bind` has returned. The handle is alive, so the `hinfo` may be marked. -/
theorem bound (h : s.Inv) (hid : s.handles id = some (some p)) (hp : s.mgr.heap p = some info)
    (cl : Option κ) :
    Inv { s with mgr := s.mgr.set p (bindEnd cl info) } := by
  have hcounted := h.counted p info hp
  unfold bindEnd
  cases cl with
  | none =>
    exact h.set hp rfl (fun _ _ _ => Iff.rfl) { hcounted with
      del := fun _ => hcounted.refcnt_ne_zero hid, cl_mutex := nofun }
  | some cl =>
    exact h.set hp rfl (fun _ _ _ => Iff.rfl) { hcounted with cl_mutex := nofun }

/-- Every event keeps the invariant. -/
theorem step (h : s.Inv) {e : HandleEvent κ} {s' : Handles κ} (hstep : s.step e = some s') :
    s'.Inv := by
  cases e with
  | construct id m new =>
    rw [Handles.step] at hstep
    split_ifs at hstep with hguard
    rw [← Option.some.inj hstep]
    exact h.construct hguard.1 m (Option.isNone_iff_eq_none.mp hguard.2)
  | safebind id =>
    rw [Handles.step] at hstep
    split at hstep
    · cases hstep
    · rw [← Option.some.inj hstep]
      exact h
    · next p hid =>
      obtain ⟨info, hp⟩ := h.live id p hid
      rw [hp] at hstep
      dsimp only at hstep
      split_ifs at hstep
      rw [← Option.some.inj hstep]
      exact h.safebind hid hp
  | bound id cl =>
    rw [Handles.step] at hstep
    split at hstep
    · cases hstep
    · cases hstep
    · next p hid =>
      obtain ⟨info, hp⟩ := h.live id p hid
      rw [hp] at hstep
      dsimp only at hstep
      split_ifs at hstep
      rw [← Option.some.inj hstep]
      exact h.bound hid hp cl
  | destroy id =>
    rw [Handles.step] at hstep
    split at hstep
    · cases hstep
    · next hid =>
      rw [← Option.some.inj hstep]
      refine h.keep fun q => HInfo.update_iff (fun hq => ?_) nofun
      cases hid.symm.trans hq
    · next p hid =>
      split_ifs at hstep with hbinding
      rw [← Option.some.inj hstep]
      exact h.destroy hid (Bool.eq_false_iff.mpr hbinding)
  | deleteHandle m =>
    rw [← Option.some.inj hstep]
    exact h.deleteHandle m

end Handles.Inv

namespace Handles

/-- The invariant holds after every run. -/
theorem inv_of_reachable {κ : Type} {s : Handles κ} (h : (system κ).Reachable System.anything s) :
    s.Inv := by
  refine h.invariant (fun s hs => ?_) fun s e s' hs _ hstep => hs.step hstep
  obtain rfl : s = start := hs
  exact ⟨rfl, nofun, nofun, nofun, nofun⟩

end Handles

/-! ## What holds of the handles -/

/-- The cache of connections is right. -/
structure HandlesSound {κ : Type} (s : Handles κ) : Prop where
  /-- An `hinfo` in `hmap` has the name and counts the handles that point to it. -/
  refcnt : ∀ m p, s.mgr.hmap m = some p → ∃ info, s.mgr.heap p = some info ∧ info.m = m ∧
    info.refcnt = handleCount s.handles p
  /-- No handle points to an `hinfo` that was freed. -/
  alive : ∀ id p, s.handles id = some (some p) → (s.mgr.heap p).isSome
  /-- Memory that was freed has not been used. -/
  fault : s.fault = false
  /-- An `hinfo` that is to be deleted and has no handle is not in `hmap`. -/
  deleted : ∀ m p info, s.mgr.hmap m = some p → s.mgr.heap p = some info →
    ¬ (info.del = true ∧ info.refcnt = 0)
  /-- Every `hinfo` that is allocated is in `hmap`. -/
  mapped : ∀ p, (s.mgr.heap p).isSome → ∃ m, s.mgr.hmap m = some p
  /-- `get_handle` returns no `hinfo` only when a handle for the node has one that is to be
  deleted. -/
  null : ∀ m new mgr, s.mgr.getHandle m new = some (none, mgr) →
    ∃ id p info, s.handles id = some (some p) ∧ s.mgr.heap p = some info ∧ info.m = m ∧
      info.del = true
  /-- The number of handles is not negative. -/
  nonneg : ∀ p info, s.mgr.heap p = some info → 0 ≤ info.refcnt

/-- After every run of any number of threads the handles are counted, and an `hinfo` is freed when
it is to be deleted and its last handle is destroyed, and not before. -/
theorem handles_sound {κ : Type} {s : Handles κ}
    (h : (Handles.system κ).Reachable System.anything s) : HandlesSound s := by
  have hinv := Handles.inv_of_reachable h
  refine ⟨fun m p hm => ?_, fun id p hid => ?_, hinv.fault, fun m p info _ hp hdel => ?_,
    fun p hp => ?_, fun m new mgr hnull => ?_, fun p info hp => ?_⟩
  · obtain ⟨info, hp, hname⟩ := hinv.mapped m p hm
    exact ⟨info, hp, hname, (hinv.counted p info hp).refcnt⟩
  · obtain ⟨info, hp⟩ := hinv.live id p hid
    rw [hp]
    rfl
  · exact (hinv.counted p info hp).del hdel.1 hdel.2
  · obtain ⟨info, hp⟩ := Option.isSome_iff_exists.mp hp
    exact ⟨info.m, hinv.named p info hp⟩
  · cases hm : s.mgr.hmap m with
    | none =>
      rw [HandleMgr.getHandle_of_none hm] at hnull
      cases hnull
    | some p =>
      obtain ⟨info, hp, hname⟩ := hinv.mapped m p hm
      have hcounted := hinv.counted p info hp
      have hdel : info.del = true := by
        rw [HandleMgr.getHandle_of_some hm hp] at hnull
        split_ifs at hnull with hdel
        · exact hdel
        · cases hnull
      obtain ⟨id, hid⟩ := hcounted.exists_handle (hcounted.del hdel)
      exact ⟨id, p, info, hid, hp, hname, hdel⟩
  · rw [(hinv.counted p info hp).refcnt]
    exact Int.natCast_nonneg _

/-- Two handles for a node: the first one cannot bind, and the `hinfo` is kept until the second one
is destroyed as well. Then a new handle for the node gets a new `hinfo`. -/
def failedBind : List (HandleEvent ℕ) :=
  [.construct 0 "a" 8, .construct 1 "a" 9, .safebind 0, .bound 0 none, .construct 2 "a" 9,
    .destroy 0, .deleteHandle "a", .destroy 1, .construct 3 "a" 8]

/-- The run ends with one handle for the new `hinfo`, and one that has none. -/
theorem handles_sound_failedBind : ∃ s, (Handles.system ℕ).Reachable System.anything s ∧
    s.mgr.heap 8 = some ⟨none, 1, false, "a", none⟩ ∧ s.handles 2 = some none ∧
      s.handles 3 = some (some 8) ∧ HandlesSound s := by
  have hmap : ((Handles.system ℕ).exec .start failedBind).map
      (fun s => (s.mgr.heap 8, s.handles 2, s.handles 3)) =
        some (some ⟨none, 1, false, "a", none⟩, some none, some (some 8)) := by decide +kernel
  obtain ⟨s, hexec, hs⟩ := Option.map_eq_some_iff.mp hmap
  obtain ⟨hheap, hhandles⟩ := Prod.mk.inj hs
  obtain ⟨hnull, hnew⟩ := Prod.mk.inj hhandles
  have hreachable := System.Reachable.of_exec hexec rfl
  exact ⟨s, hreachable, hheap, hnull, hnew, handles_sound hreachable⟩

end SimpleDfs.Rpc
