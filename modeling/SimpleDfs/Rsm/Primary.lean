import SimpleDfs.Base.System
import SimpleDfs.Config.Views

/-!
# The primary of a view

`primary` and `vid_commit` of `rsm.cc`. The nodes agree on the views; each node keeps the primary of
the view that it has, and takes it along from view to view with `set_primary`. A node starts with
the address from its command line, learns of views from its config module, in any order and with
views left out, and may join at any view.

`primaryOf` is the primary that results when the views are followed one by one. A node that comes to
a view with a primary that was the primary of an earlier view, and was a member of all views in
between, has it (`single_primary`). A node that restarts with an old address does not
(`restart_splits_primary`).
-/

namespace SimpleDfs.Rsm

open Paxos

/-- The views that the nodes agree on, up to the last one. -/
structure ViewSeq where
  /-- The members of each view. -/
  view : ℕ → List String
  /-- The number of the last view. -/
  last : ℕ
  /-- There is no view before the first one. -/
  view_zero : view 0 = []
  /-- The first view has one member. -/
  view_one : ∃ m, view 1 = [m]
  /-- The views follow each other. -/
  next : ∀ v, 1 ≤ v → v + 1 ≤ last → NextView (view v) (view (v + 1))

/-- The fields of `rsm` that choose the primary. -/
structure RsmState where
  /-- The primary. -/
  primary : String
  /-- The latest view that the node knows of. -/
  vid_commit : ℕ
  deriving DecidableEq, Repr

/-- `rsm::set_primary`. It has no result when a `VERIFY` fails; the last one fails when the search
finds nothing. -/
def setPrimary (view : ℕ → List String) (primary : String) (vid : ℕ) : Option String :=
  let c := view vid
  let p := view (vid - 1)
  if c.length > 0 then
    -- The primary stays while it is a member of the new view.
    if isamember primary c then some primary
    else if p.length > 0 then p.find? fun x => isamember x c
    else none
  else none

/-- `rsm::commit_change_wo`. -/
def RsmState.commitChangeWo (view : ℕ → List String) (r : RsmState) (vid : ℕ) : Option RsmState :=
  if vid ≤ r.vid_commit then some r
  else (setPrimary view r.primary vid).map fun primary => ⟨primary, vid⟩

/-- `rsm::rsm` at node `me`. The first node commits the first view. -/
def RsmState.construct (view : ℕ → List String) (first me : String) : Option RsmState :=
  if first = me then RsmState.commitChangeWo view ⟨first, 0⟩ 1 else some ⟨first, 0⟩

/-- A process of a node. -/
inductive Process where
  /-- The node was never started. -/
  | off
  /-- The node runs. -/
  | up (r : RsmState)
  /-- A `VERIFY` failed. -/
  | aborted
  deriving DecidableEq, Repr

/-- The process with the result of a step. -/
def Process.ofOption : Option RsmState → Process
  | some r => up r
  | none => aborted

/-- What happens at a node. -/
inductive RsmEvent where
  /-- The node `p` is started, or started again, with an address on its command line. Only the node
  of the first view is started as the first node. -/
  | start (p first : String)
  /-- The config module of node `p` informs it of a view. -/
  | commit (p : String) (vid : ℕ)
  /-- The recovery thread of node `p`, which is not in its view, joins at a view. -/
  | join (p : String) (vid : ℕ)
  deriving DecidableEq, Repr

/-- The processes after an event, when it is possible. -/
def next (V : ViewSeq) (s : String → Process) : RsmEvent → Option (String → Process)
  | .start p first =>
    if first = p ∧ V.view 1 ≠ [p] then none
    else some (Function.update s p (.ofOption (RsmState.construct V.view first p)))
  | .commit p vid =>
    match s p with
    | .up r =>
      if vid ≤ V.last then some (Function.update s p (.ofOption (r.commitChangeWo V.view vid)))
      else none
    | _ => none
  | .join p vid =>
    match s p with
    | .up r =>
      if vid ≤ V.last ∧ isamember p (V.view r.vid_commit) = false then
        some (Function.update s p (.ofOption (r.commitChangeWo V.view vid)))
      else none
    | _ => none

/-- The nodes of a sequence of views, none of which was started. -/
def rsmSystem (V : ViewSeq) : System (String → Process) RsmEvent where
  init s := s = fun _ => .off
  step := next V

/-! ## The primary of a view -/

/-- The primary of each view when the views are followed one by one: the primary stays while it is a
member, and otherwise the first member of the view before that is left takes over. -/
def primaryOf (view : ℕ → List String) : ℕ → String
  | 0 => ""
  | 1 => (view 1).headD ""
  | v + 2 =>
    if primaryOf view (v + 1) ∈ view (v + 2) then primaryOf view (v + 1)
    else ((view (v + 1)).find? fun x => isamember x (view (v + 2))).getD ""

/-- The node knows the primary of view `vid`, or of the view before it: what it takes for the
primary was the primary of a view, and a member of all views since. -/
def Knows (view : ℕ → List String) (primary : String) (vid : ℕ) : Prop :=
  ∃ w ≤ vid, 1 ≤ w ∧ primaryOf view w = primary ∧ ∀ j < vid, w ≤ j → primary ∈ view j

instance (view : ℕ → List String) (primary : String) (vid : ℕ) :
    Decidable (Knows view primary vid) :=
  inferInstanceAs (Decidable (∃ w ≤ vid, 1 ≤ w ∧ primaryOf view w = primary ∧
    ∀ j < vid, w ≤ j → primary ∈ view j))

/-- The runs in which a node that comes to a later view knows its primary, or the one before it. -/
def Informed (V : ViewSeq) (s : String → Process) : RsmEvent → Prop
  | .start _ _ => True
  | .commit p vid | .join p vid =>
    match s p with
    | .up r => r.vid_commit < vid → Knows V.view r.primary vid
    | _ => True

instance (V : ViewSeq) (s : String → Process) : ∀ e, Decidable (Informed V s e)
  | .start _ _ => inferInstanceAs (Decidable True)
  | .commit p vid | .join p vid =>
    match h : s p with
    | .up r => decidable_of_iff (r.vid_commit < vid → Knows V.view r.primary vid)
        (by simp only [Informed, h])
    | .off | .aborted => isTrue (by simp only [Informed, h])

section Views

variable {V : ViewSeq}

/-- Two views that follow each other have a member in common. -/
theorem exists_common {old new : List String} (h : NextView old new) (hold : old ≠ []) :
    ∃ x ∈ old, x ∈ new := by
  rcases h.one with ⟨m, -, rfl⟩ | ⟨m, -, rfl⟩
  · obtain ⟨x, hx⟩ := List.exists_mem_of_ne_nil old hold
    exact ⟨x, hx, List.mem_append_left _ hx⟩
  · obtain ⟨x, hx⟩ := List.exists_mem_of_ne_nil _ h.ne
    exact ⟨x, List.mem_of_mem_erase hx, hx⟩

/-- No view is empty. -/
theorem ViewSeq.view_ne_nil (V : ViewSeq) {v : ℕ} (h1 : 1 ≤ v) (hv : v ≤ V.last) :
    V.view v ≠ [] := by
  obtain ⟨v, rfl⟩ : ∃ u, v = u + 1 := ⟨v - 1, by omega⟩
  cases v with
  | zero =>
    obtain ⟨m, hm⟩ := V.view_one
    rw [hm]
    exact List.cons_ne_nil _ _
  | succ v => exact (V.next (v + 1) (by omega) hv).ne

/-- When the primary has left, the search of `set_primary` finds a member of both views. -/
theorem ViewSeq.exists_find (V : ViewSeq) {v : ℕ} (h1 : 1 ≤ v) (hv : v + 1 ≤ V.last) :
    ∃ x, ((V.view v).find? fun x => isamember x (V.view (v + 1))) = some x ∧ x ∈ V.view v ∧
      x ∈ V.view (v + 1) := by
  obtain ⟨x, hx, hx'⟩ := exists_common (V.next v h1 hv) (V.view_ne_nil h1 (by omega))
  have hsome : ((V.view v).find? fun x => isamember x (V.view (v + 1))).isSome = true :=
    List.find?_isSome.mpr ⟨x, hx, isamember_iff.mpr hx'⟩
  obtain ⟨y, hy⟩ := Option.isSome_iff_exists.mp hsome
  have hmem := List.find?_some hy
  exact ⟨y, hy, List.mem_of_find?_eq_some hy, isamember_iff.mp hmem⟩

/-- The primary of a view is a member of it and, from the second view on, of the view before it. -/
theorem ViewSeq.primaryOf_mem (V : ViewSeq) {v : ℕ} (h1 : 1 ≤ v) (hv : v ≤ V.last) :
    primaryOf V.view v ∈ V.view v ∧ (1 < v → primaryOf V.view v ∈ V.view (v - 1)) := by
  induction v with
  | zero => omega
  | succ v ih =>
    cases v with
    | zero =>
      obtain ⟨m, hm⟩ := V.view_one
      refine ⟨?_, fun h => by omega⟩
      simp [primaryOf, hm]
    | succ v =>
      have hmem := (ih (by omega) (by omega)).1
      rw [primaryOf]
      split_ifs with hstay
      · exact ⟨hstay, fun _ => hmem⟩
      · obtain ⟨x, hfind, hx, hx'⟩ := V.exists_find (v := v + 1) (by omega) hv
        rw [hfind]
        exact ⟨hx', fun _ => hx⟩

/-- A primary that stays a member stays the primary. -/
theorem primaryOf_eq_of_stays {view : ℕ → List String} {primary : String} {w v : ℕ} (h1 : 1 ≤ w)
    (hw : primaryOf view w = primary) (hwv : w ≤ v)
    (hstays : ∀ j, w ≤ j → j ≤ v → primary ∈ view j) : primaryOf view v = primary := by
  induction v, hwv using Nat.le_induction with
  | base => exact hw
  | succ v hv ih =>
    obtain ⟨u, rfl⟩ : ∃ u, v = u + 1 := ⟨v - 1, by omega⟩
    have hprev := ih fun j hj hj' => hstays j hj (by omega)
    rw [primaryOf, hprev, if_pos (hstays (u + 2) (by omega) (by omega))]

/-- `set_primary` gives the primary of the view to a node that knows it, or the one before. -/
theorem setPrimary_of_knows {primary : String} {vid : ℕ} (hvid : vid ≤ V.last)
    (h : Knows V.view primary vid) :
    setPrimary V.view primary vid = some (primaryOf V.view vid) := by
  obtain ⟨w, hw, h1, hprim, hstays⟩ := h
  have hpos : (V.view vid).length > 0 := List.length_pos_of_ne_nil (V.view_ne_nil (by omega) hvid)
  unfold setPrimary
  dsimp only
  rw [if_pos hpos]
  by_cases hmem : primary ∈ V.view vid
  · -- The primary stays, and was a member of all views since it was chosen.
    rw [if_pos (isamember_iff.mpr hmem)]
    refine congrArg some (primaryOf_eq_of_stays h1 hprim hw fun j hj hj' => ?_).symm
    rcases Nat.lt_or_eq_of_le hj' with hlt | rfl
    · exact hstays j hlt hj
    · exact hmem
  · -- The primary leaves with this view, and was the primary of the one before.
    have hlt : w < vid := by
      refine lt_of_le_of_ne hw fun heq => hmem ?_
      rw [← heq, ← hprim]
      exact (V.primaryOf_mem h1 (by omega)).1
    obtain ⟨u, rfl⟩ : ∃ u, vid = u + 2 := ⟨vid - 2, by omega⟩
    have hprev : primaryOf V.view (u + 1) = primary :=
      primaryOf_eq_of_stays h1 hprim (by omega) fun j hj hj' => hstays j (by omega) hj
    have hpos' : (V.view (u + 2 - 1)).length > 0 :=
      List.length_pos_of_ne_nil (V.view_ne_nil (by omega) (by omega))
    obtain ⟨x, hfind, -⟩ := V.exists_find (v := u + 1) (by omega) hvid
    rw [if_neg (fun hyes => hmem (isamember_iff.mp hyes)), if_pos hpos', primaryOf, hprev,
      if_neg hmem]
    show (V.view (u + 1)).find? _ = _
    rw [hfind]
    rfl

end Views

/-! ## The runs -/

/-- What holds of a process: it was not aborted and, from the first view on, it has the primary of
its view. -/
def ProcessInv (V : ViewSeq) : Process → Prop
  | .off => True
  | .up r => r.vid_commit ≤ V.last ∧ (1 ≤ r.vid_commit → r.primary = primaryOf V.view r.vid_commit)
  | .aborted => False

/-- A node that comes to a view whose primary it knows. -/
theorem processInv_commitChangeWo {V : ViewSeq} {r : RsmState} (h : ProcessInv V (.up r)) {vid : ℕ}
    (hvid : vid ≤ V.last) (hknows : r.vid_commit < vid → Knows V.view r.primary vid) :
    ProcessInv V (.ofOption (r.commitChangeWo V.view vid)) := by
  unfold RsmState.commitChangeWo
  split_ifs with hold
  · exact h
  · rw [setPrimary_of_knows hvid (hknows (by omega))]
    exact ⟨hvid, fun _ => rfl⟩

/-- A node that starts; the first node has the first view. -/
theorem processInv_construct {V : ViewSeq} (hlast : 1 ≤ V.last) {first p : String}
    (h : ¬ (first = p ∧ V.view 1 ≠ [p])) :
    ProcessInv V (.ofOption (RsmState.construct V.view first p)) := by
  have hstart : ProcessInv V (.up ⟨first, 0⟩) :=
    ⟨Nat.zero_le _, fun h1 => absurd h1 (Nat.not_succ_le_zero 0)⟩
  unfold RsmState.construct
  split_ifs with hfirst
  · -- The first node starts with its own address, and is the only member.
    have hview : V.view 1 = [first] := by
      by_contra hne
      exact h ⟨hfirst, hfirst ▸ hne⟩
    refine processInv_commitChangeWo hstart hlast fun _ => ?_
    refine ⟨1, le_rfl, le_rfl, ?_, fun j hj hj' => by omega⟩
    simp [primaryOf, hview]
  · exact hstart

/-- Every event of an informed run keeps all processes in order. -/
theorem processInv_next {V : ViewSeq} (hlast : 1 ≤ V.last) {s s' : String → Process} {e : RsmEvent}
    (h : ∀ q, ProcessInv V (s q)) (hG : Informed V s e) (hs : next V s e = some s') (q : String) :
    ProcessInv V (s' q) := by
  -- An event is about one process, and the others stay as they are.
  have hset : ∀ {p x}, ProcessInv V x → ProcessInv V (Function.update s p x q) := by
    intro p x hx
    by_cases hqp : q = p
    · rw [hqp, Function.update_self]
      exact hx
    · rw [Function.update_of_ne hqp]
      exact h q
  cases e with
  | start p first =>
    simp only [next] at hs
    split_ifs at hs with hno
    rw [← Option.some.inj hs]
    exact hset (processInv_construct hlast hno)
  | commit p vid =>
    simp only [next] at hs
    split at hs
    · next r hr =>
      split_ifs at hs with hvid
      rw [← Option.some.inj hs]
      simp only [Informed, hr] at hG
      exact hset (processInv_commitChangeWo (hr ▸ h p) hvid hG)
    · cases hs
  | join p vid =>
    simp only [next] at hs
    split at hs
    · next r hr =>
      split_ifs at hs with hvid
      rw [← Option.some.inj hs]
      simp only [Informed, hr] at hG
      exact hset (processInv_commitChangeWo (hr ▸ h p) hvid.1 hG)
    · cases hs

/-- In an informed run, no `VERIFY` of `set_primary` fails, and any two members of a view that have
it have the same primary, which is a member of it and, from the second view on, of the view before.
-/
theorem single_primary {V : ViewSeq} (hlast : 1 ≤ V.last) {s : String → Process}
    (h : (rsmSystem V).Reachable (Informed V) s) :
    (∀ p, s p ≠ .aborted) ∧ ∀ p q r r' v, s p = .up r → s q = .up r' → 1 ≤ v → r.vid_commit = v →
      r'.vid_commit = v → p ∈ V.view v → q ∈ V.view v →
      r.primary = r'.primary ∧ r.primary ∈ V.view v ∧ (1 < v → r.primary ∈ V.view (v - 1)) := by
  have hinv : ∀ p, ProcessInv V (s p) :=
    h.invariant (I := fun t : String → Process => ∀ p, ProcessInv V (t p))
      (fun s₀ hinit p => by rw [show s₀ = _ from hinit]; trivial)
      fun _ _ _ hI hG hs => processInv_next hlast hI hG hs
  refine ⟨fun p hp => ?_, fun p q r r' v hp hq h1 hr hr' _ _ => ?_⟩
  · have := hinv p
    rw [hp] at this
    exact this
  · have hpv := hinv p
    have hqv := hinv q
    rw [hp] at hpv
    rw [hq] at hqv
    have hprim : r.primary = primaryOf V.view v := hr ▸ hpv.2 (by omega)
    have hprim' : r'.primary = primaryOf V.view v := hr' ▸ hqv.2 (by omega)
    obtain ⟨hmem, hmem'⟩ := V.primaryOf_mem h1 (by rw [← hr]; exact hpv.1)
    rw [hprim, hprim']
    exact ⟨rfl, hmem, hmem'⟩

/-- Node `a` leaves after the third view, and comes back in the fifth. -/
def leaveAndReturn : ViewSeq where
  view v := match v with
    | 1 => ["a"]
    | 2 => ["a", "b"]
    | 3 => ["a", "b", "c"]
    | 4 => ["b", "c"]
    | 5 => ["b", "c", "a"]
    | _ => []
  last := 5
  view_zero := rfl
  view_one := ⟨"a", rfl⟩
  next v h1 hv := by
    match v with
    | 1 => exact ⟨by decide, by decide, Or.inl ⟨"b", by decide, rfl⟩⟩
    | 2 => exact ⟨by decide, by decide, Or.inl ⟨"c", by decide, rfl⟩⟩
    | 3 => exact ⟨by decide, by decide, Or.inr ⟨"a", by decide, by decide⟩⟩
    | 4 => exact ⟨by decide, by decide, Or.inl ⟨"a", by decide, rfl⟩⟩

/-- Nodes `b` and `c` follow the views that they are in, and have the same primary in the fifth one.
-/
theorem single_primary_followers : ∃ s r r',
    (rsmSystem leaveAndReturn).Reachable (Informed leaveAndReturn) s ∧ s "b" = .up r ∧
      s "c" = .up r' ∧ r.vid_commit = 5 ∧ r'.vid_commit = 5 ∧ r.primary = r'.primary := by
  have hrun : ((rsmSystem leaveAndReturn).execGuarded (Informed leaveAndReturn) (fun _ => .off)
      [.start "b" "a", .join "b" 2, .commit "b" 3, .commit "b" 4, .commit "b" 5,
        .start "c" "a", .join "c" 3, .commit "c" 4, .commit "c" 5]).map
      (fun s => (s "b", s "c")) = some (.up ⟨"b", 5⟩, .up ⟨"b", 5⟩) := by decide
  obtain ⟨s, hexec, hdata⟩ := Option.map_eq_some_iff.mp hrun
  obtain ⟨hb, hc⟩ := Prod.mk.inj hdata
  have hreach := System.Reachable.of_execGuarded hexec rfl
  exact ⟨s, _, _, hreach, hb, hc, rfl, rfl,
    ((single_primary (by decide) hreach).2 "b" "c" _ _ 5 hb hc (by decide) rfl rfl (by decide)
      (by decide)).1⟩

/-- Nodes `b` and `c` join node `a`. Node `b` takes over when node `a` leaves, and node `a` comes
back through node `b` in the fifth view. Then node `c` restarts with the address of node `a`, as it
was started first, and joins again in the fifth view, in which node `a` is a member. -/
def restartWithOldAddress : List RsmEvent :=
  [.start "a" "a", .start "b" "a", .join "b" 2, .commit "a" 2, .start "c" "a", .join "c" 3,
    .commit "a" 3, .commit "b" 3, .commit "b" 4, .commit "c" 4, .start "a" "b", .join "a" 5,
    .commit "b" 5, .commit "c" 5, .start "c" "a", .join "c" 5]

/-- Two members of the fifth view have different primaries. -/
theorem restart_splits_primary : ∃ s,
    (rsmSystem leaveAndReturn).exec (fun _ => .off) restartWithOldAddress = some s ∧
      (rsmSystem leaveAndReturn).Reachable System.anything s ∧
      "b" ∈ leaveAndReturn.view 5 ∧ "c" ∈ leaveAndReturn.view 5 ∧
      s "b" = .up ⟨"b", 5⟩ ∧ s "c" = .up ⟨"a", 5⟩ := by
  have hrun : ((rsmSystem leaveAndReturn).exec (fun _ => .off) restartWithOldAddress).map
      (fun s => (s "b", s "c")) = some (.up ⟨"b", 5⟩, .up ⟨"a", 5⟩) := by decide
  obtain ⟨s, hexec, hdata⟩ := Option.map_eq_some_iff.mp hrun
  obtain ⟨hb, hc⟩ := Prod.mk.inj hdata
  exact ⟨s, hexec, .of_exec hexec rfl, by decide, by decide, hb, hc⟩

end SimpleDfs.Rsm
