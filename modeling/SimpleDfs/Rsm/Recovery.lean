import SimpleDfs.Rsm.Primary

/-!
# The recovery thread

The rest of `rsm.cc` that is not a stub: the recovery thread, which joins the replicated state
machine, synchronises for each view and ends the view change, beside `commit_change`, which the
config module calls with every new view, and the handlers that look at the state in between. All of
it runs under `rsm_mutex`. A step of the model is what a thread does from one point at which it
gets the mutex to the next one at which it gives it up. The recovery thread gives it up during the
call of `join`, while it sleeps after a failed one, in `sync_with_backups` and in
`pthread_cond_wait`; a new view may come at each of these points.

The nodes of `clusterSystem` are those of `rsmSystem` with all of this added
(`reachable_processes`). `recovery_settles` says what holds at a node whatever happens: the recovery
thread does not sleep through a view change, a view change is over only in a view that the node is a
member of and has synchronised for, and no other node ever gets a copy of its state.
`members_lead_to_primary` is about the nodes together: whichever node of a view a client asks for
the members, it is led to the one node that takes itself for the primary.
-/

namespace SimpleDfs.Rsm

open Paxos

/-! ## A node -/

/-- `viewstamp`. -/
structure Viewstamp where
  /-- The view. -/
  vid : ℕ
  /-- The number of a request in the view. -/
  seqno : ℕ
  deriving DecidableEq, Repr

/-- Where the recovery thread has given up `rsm_mutex`. -/
inductive RecoveryPc where
  /-- It was created, and has not had the mutex yet. -/
  | begins
  /-- In `join`, during the call. -/
  | joins
  /-- In the `sleep` after a `join` that failed. -/
  | sleeps
  /-- In `sync_with_backups`. -/
  | syncs
  /-- In `pthread_cond_wait`, and whether it was signalled since. -/
  | waits (signalled : Bool)
  deriving DecidableEq, Repr

/-- `pthread_cond_signal` of `recovery_cond`. -/
def RecoveryPc.signal : RecoveryPc → RecoveryPc
  | waits _ => waits true
  | begins => begins
  | joins => joins
  | sleeps => sleeps
  | syncs => syncs

/-- The fields of `rsm`, and its recovery thread. -/
structure RsmNode extends RsmState where
  /-- The view that the node synchronises for; the constructor does not set it. -/
  vid_insync : Option ℕ
  /-- The node takes requests for its state. -/
  insync : Bool
  /-- There is a view change. -/
  inviewchange : Bool
  /-- The viewstamp for the next request. -/
  myvs : Viewstamp
  /-- The viewstamp of the last request that was executed. -/
  last_myvs : Viewstamp
  /-- The recovery thread. -/
  recovery : RecoveryPc
  deriving DecidableEq, Repr

namespace RsmNode

/-- `rsm::commit_change_wo`, which has no result when a `VERIFY` of `set_primary` fails. -/
def commitChangeWo (view : ℕ → List String) (s : RsmNode) (vid : ℕ) : Option RsmNode :=
  if vid ≤ s.vid_commit then some s
  else (setPrimary view s.primary vid).map fun primary =>
    { s with
      primary := primary
      vid_commit := vid
      inviewchange := true
      recovery := s.recovery.signal }

/-- The fields that the initialisers of `rsm::rsm` set. -/
def initial (first : String) : RsmNode where
  primary := first
  vid_commit := 0
  vid_insync := none
  insync := false
  inviewchange := true
  myvs := ⟨0, 1⟩
  last_myvs := ⟨0, 0⟩
  recovery := .begins

/-- `rsm::rsm` at node `me`. -/
def construct (view : ℕ → List String) (first me : String) : Option RsmNode :=
  if first = me then (initial first).commitChangeWo view 1 else some (initial first)

/-- The end of the loop of `rsm::recovery`, up to `pthread_cond_wait`; `r` is the result of the
synchronisation. -/
def goToSleep (s : RsmNode) (r : Bool) : RsmNode :=
  if r then
    { s with myvs := ⟨s.vid_commit, 1⟩, inviewchange := false, recovery := .waits false }
  else { s with recovery := .waits false }

/-- `rsm::sync_with_primary`. -/
def syncWithPrimary (_ : RsmNode) : Bool := true

/-- The loop of `rsm::recovery`, from its start to the next point at which it gives up the mutex. -/
def pass (view : ℕ → List String) (me : String) (s : RsmNode) : RsmNode :=
  if isamember me (view s.vid_commit) then
    let s := { s with vid_insync := some s.vid_commit }
    if s.primary = me then { s with recovery := .syncs }
    -- The mutex is kept, so there is no new view before the end of the loop.
    else s.goToSleep s.syncWithPrimary
  else { s with recovery := .joins }

/-- `rsm::sync_with_backups` from where it has the mutex again, and the loop after it. -/
def synced (view : ℕ → List String) (me : String) (s : RsmNode) : RsmNode :=
  let s := { s with insync := true }
  let s := { s with insync := false }
  if s.vid_insync = some s.vid_commit then s.goToSleep true
  -- There was a new view during the synchronisation.
  else s.pass view me

/-- `rsm::amiprimary`. -/
def amiprimary (me : String) (s : RsmNode) : Bool := s.primary = me && !s.inviewchange

/-- `rsm_protocol::transferres`. -/
structure Transferres where
  /-- The state. -/
  state : String
  /-- The viewstamp of the last request in it. -/
  last : Viewstamp
  deriving DecidableEq, Repr

/-- `rsm::transferreq` when `marshal_state` gives `stf`, if there is a `stf`; no result stands for
`BUSY`. -/
def transferreq (s : RsmNode) (stf : Option String) (last : Viewstamp) (vid : ℕ) :
    Option Transferres :=
  if !s.insync || s.vid_insync ≠ some vid then none
  else some ⟨if last ≠ s.last_myvs then stf.getD "" else "", s.last_myvs⟩

/-- `rsm::client_members`. -/
def clientMembers (view : ℕ → List String) (s : RsmNode) : List String :=
  view s.vid_commit ++ [s.primary]

end RsmNode

/-- The fields of `rsm_client`. -/
structure RsmClient where
  /-- The primary. -/
  primary : String
  /-- The members. -/
  known_mems : List String
  deriving DecidableEq, Repr

/-- `rsm_client::init_members` from the answer of `client_members`. A `VERIFY` fails on an empty
one. -/
def initMembers (new_view : List String) : Option RsmClient :=
  new_view.getLast?.map fun primary => ⟨primary, new_view.dropLast⟩

/-! ## The nodes -/

/-- A process of a node. -/
inductive NodeProcess where
  /-- The node was never started. -/
  | off
  /-- The node runs. -/
  | up (r : RsmNode)
  /-- A `VERIFY` failed. -/
  | aborted
  deriving DecidableEq, Repr

/-- The process with the result of a step. -/
def NodeProcess.ofOption : Option RsmNode → NodeProcess
  | some r => up r
  | none => aborted

/-- The process without its recovery thread. -/
def NodeProcess.process : NodeProcess → Process
  | off => .off
  | up r => .up r.toRsmState
  | aborted => .aborted

/-- What happens at a node that runs. -/
inductive NodeEvent where
  /-- The config module informs the node of a view with `commit_change`. -/
  | commit (vid : ℕ)
  /-- The call of `join` succeeds, and the config module has the view after `restore`. -/
  | joined (vid : ℕ)
  /-- The call of `join` fails. -/
  | joinFails
  /-- The recovery thread has slept, was signalled or is woken for no reason, or gets the mutex. -/
  | goesOn
  deriving DecidableEq, Repr

/-- A node after an event, when it is possible. -/
def RsmNode.step (V : ViewSeq) (me : String) (s : RsmNode) : NodeEvent → Option NodeProcess
  | .commit vid =>
    if vid ≤ V.last then some (.ofOption (s.commitChangeWo V.view vid)) else none
  | .joined vid =>
    if s.recovery = .joins ∧ vid ≤ V.last then
      some (.ofOption ((s.commitChangeWo V.view vid).map fun s' => s'.pass V.view me))
    else none
  | .joinFails => if s.recovery = .joins then some (.up { s with recovery := .sleeps }) else none
  | .goesOn =>
    match s.recovery with
    | .joins => none
    | .syncs => some (.up (s.synced V.view me))
    | .begins | .sleeps | .waits _ => some (.up (s.pass V.view me))

/-- What happens to the nodes. -/
inductive ClusterEvent where
  /-- The node `p` is started, or started again, with an address on its command line. Only the node
  of the first view is started as the first node. -/
  | start (p first : String)
  /-- Something happens at the node `p`. -/
  | node (p : String) (e : NodeEvent)
  deriving DecidableEq, Repr

/-- The nodes of a sequence of views with their recovery threads, none of which was started. -/
def clusterSystem (V : ViewSeq) : System (String → NodeProcess) ClusterEvent where
  init s := s = fun _ => .off
  step s
    | .start p first =>
      if first = p ∧ V.view 1 ≠ [p] then none
      else some (Function.update s p (.ofOption (RsmNode.construct V.view first p)))
    | .node p e =>
      match s p with
      | .up r => (r.step V p e).map fun x => Function.update s p x
      | .off | .aborted => none

/-! ## One node -/

/-- What holds of node `me` at every point at which `rsm_mutex` is free. -/
structure NodeInv (V : ViewSeq) (me : String) (r : RsmNode) : Prop where
  /-- A view change is over in a view that the node is a member of and has synchronised for. -/
  settled : r.inviewchange = false →
    me ∈ V.view r.vid_commit ∧ r.vid_insync = some r.vid_commit ∧ r.myvs = ⟨r.vid_commit, 1⟩
  /-- The recovery thread waits for a signal only when there is no view change. -/
  awake : r.recovery = .waits false → r.inviewchange = false
  /-- The node synchronises for views that it is a member of. -/
  member : ∀ w, r.vid_insync = some w → me ∈ V.view w
  /-- The synchronisation is over. -/
  insync : r.insync = false
  /-- No request was executed. -/
  last : r.last_myvs = ⟨0, 0⟩

section Node

variable {V : ViewSeq} {me : String} {r r' : RsmNode}

/-- A thread that was signalled does not wait for a signal. -/
theorem RecoveryPc.signal_ne (pc : RecoveryPc) : pc.signal ≠ .waits false := by
  cases pc <;> simp [signal]

/-- The initialisers of a node. -/
theorem nodeInv_initial (first : String) : NodeInv V me (RsmNode.initial first) where
  settled := nofun
  awake := nofun
  member := nofun
  insync := rfl
  last := rfl

/-- A new view, which starts a view change and wakes the recovery thread. -/
theorem NodeInv.commitChangeWo (h : NodeInv V me r) {vid : ℕ}
    (hr : r.commitChangeWo V.view vid = some r') : NodeInv V me r' := by
  unfold RsmNode.commitChangeWo at hr
  split_ifs at hr with hold
  · exact Option.some.inj hr ▸ h
  · obtain ⟨primary, -, rfl⟩ := Option.map_eq_some_iff.mp hr
    constructor
    case settled => intro hover; cases hover
    case awake => intro hwaits; exact absurd hwaits r.recovery.signal_ne
    case member => exact h.member
    case insync => exact h.insync
    case last => exact h.last

/-- A node starts. -/
theorem nodeInv_construct {first : String} (hr : RsmNode.construct V.view first me = some r) :
    NodeInv V me r := by
  unfold RsmNode.construct at hr
  split_ifs at hr with hfirst
  · exact (nodeInv_initial first).commitChangeWo hr
  · exact Option.some.inj hr ▸ nodeInv_initial first

/-- The recovery thread is done with the view. -/
theorem NodeInv.goToSleep (h : NodeInv V me r) (hsync : r.vid_insync = some r.vid_commit) :
    NodeInv V me (r.goToSleep true) where
  settled _ := ⟨h.member _ hsync, hsync, rfl⟩
  awake _ := rfl
  member := h.member
  insync := h.insync
  last := h.last

/-- The recovery thread is at a place where it does not wait for a signal. -/
theorem NodeInv.moves (h : NodeInv V me r) {pc : RecoveryPc} (hpc : pc ≠ .waits false) :
    NodeInv V me { r with recovery := pc } where
  settled := h.settled
  awake hwaits := absurd hwaits hpc
  member := h.member
  insync := h.insync
  last := h.last

/-- The node synchronises for the view that it has, which it is a member of. -/
theorem NodeInv.setInsync (h : NodeInv V me r) (hme : me ∈ V.view r.vid_commit) :
    NodeInv V me { r with vid_insync := some r.vid_commit } where
  settled hover := ⟨hme, rfl, (h.settled hover).2.2⟩
  awake := h.awake
  member _ hw := Option.some.inj hw ▸ hme
  insync := h.insync
  last := h.last

/-- The loop of the recovery thread. -/
theorem NodeInv.pass (h : NodeInv V me r) : NodeInv V me (r.pass V.view me) := by
  unfold RsmNode.pass
  dsimp only
  split_ifs with hme
  · exact (h.setInsync (isamember_iff.mp hme)).moves (by simp)
  · exact (h.setInsync (isamember_iff.mp hme)).goToSleep rfl
  · exact h.moves (by simp)

/-- The end of `sync_with_backups`. -/
theorem NodeInv.synced (h : NodeInv V me r) : NodeInv V me (r.synced V.view me) := by
  -- The node took requests for its state in this critical section only.
  have hinsync : NodeInv V me { r with insync := false } :=
    { settled := h.settled, awake := h.awake, member := h.member, insync := rfl, last := h.last }
  unfold RsmNode.synced
  dsimp only
  split_ifs with hsync
  · exact hinsync.goToSleep hsync
  · exact hinsync.pass

/-- Every event keeps the invariant of a node that still runs. -/
theorem NodeInv.step (h : NodeInv V me r) {e : NodeEvent}
    (hstep : r.step V me e = some (.up r')) : NodeInv V me r' := by
  have hup : ∀ {o : Option RsmNode}, NodeProcess.ofOption o = .up r' → o = some r' := by
    intro o ho
    cases o with
    | none => cases ho
    | some r₁ => exact congrArg some (NodeProcess.up.inj ho)
  cases e with
  | commit vid =>
    simp only [RsmNode.step] at hstep
    split_ifs at hstep
    exact h.commitChangeWo (hup (Option.some.inj hstep))
  | joined vid =>
    simp only [RsmNode.step] at hstep
    split_ifs at hstep
    obtain ⟨r₁, hr₁, rfl⟩ := Option.map_eq_some_iff.mp (hup (Option.some.inj hstep))
    exact (h.commitChangeWo hr₁).pass
  | joinFails =>
    simp only [RsmNode.step] at hstep
    split_ifs at hstep
    rw [← NodeProcess.up.inj (Option.some.inj hstep)]
    exact h.moves (by simp)
  | goesOn =>
    simp only [RsmNode.step] at hstep
    split at hstep
    · cases hstep
    · exact NodeProcess.up.inj (Option.some.inj hstep) ▸ h.synced
    all_goals exact NodeProcess.up.inj (Option.some.inj hstep) ▸ h.pass

end Node

/-! ## All nodes -/

section Cluster

variable {V : ViewSeq} {s s' : String → NodeProcess}

/-- What can happen: a node starts, or something happens at a node that runs. -/
theorem cluster_step_cases {e : ClusterEvent} (h : (clusterSystem V).step s e = some s') :
    (∃ p first, e = .start p first ∧ ¬(first = p ∧ V.view 1 ≠ [p]) ∧
      s' = Function.update s p (.ofOption (RsmNode.construct V.view first p))) ∨
    ∃ p e' r x, e = .node p e' ∧ s p = .up r ∧ r.step V p e' = some x ∧
      s' = Function.update s p x := by
  cases e with
  | start p first =>
    simp only [clusterSystem] at h
    split_ifs at h with hno
    exact Or.inl ⟨p, first, rfl, hno, (Option.some.inj h).symm⟩
  | node p e' =>
    simp only [clusterSystem] at h
    split at h
    · next r hr =>
      obtain ⟨x, hx, rfl⟩ := Option.map_eq_some_iff.mp h
      exact Or.inr ⟨p, e', r, x, rfl, hr, hx, rfl⟩
    all_goals cases h

/-- The invariant holds of every node that runs, whatever the nodes learn of views. -/
theorem nodeInv_of_reachable {G : (String → NodeProcess) → ClusterEvent → Prop}
    (h : (clusterSystem V).Reachable G s) (p : String) (r : RsmNode) (hp : s p = .up r) :
    NodeInv V p r := by
  refine h.invariant (I := fun t => ∀ p r, t p = .up r → NodeInv V p r) ?_ ?_ p r hp
  · rintro _ rfl p r hp
    cases hp
  · intro t e t' hI _ hstep p r hp
    obtain ⟨q, first, rfl, -, rfl⟩ | ⟨q, e', r₀, x, rfl, hq, hx, rfl⟩ := cluster_step_cases hstep
    · by_cases hpq : p = q
      · subst hpq
        rw [Function.update_self] at hp
        cases hc : RsmNode.construct V.view first p with
        | none => rw [hc] at hp; cases hp
        | some r₁ =>
          rw [hc] at hp
          exact nodeInv_construct (NodeProcess.up.inj hp ▸ hc)
      · rw [Function.update_of_ne hpq] at hp
        exact hI p r hp
    · by_cases hpq : p = q
      · subst hpq
        rw [Function.update_self] at hp
        exact (hI p r₀ hq).step (hp ▸ hx)
      · rw [Function.update_of_ne hpq] at hp
        exact hI p r hp

/-- Only the recovery thread of node `p` runs, and its calls of `join` fail. -/
def OwnRecovery (p : String) (_ : String → NodeProcess) (e : ClusterEvent) : Prop :=
  e = .node p .goesOn ∨ e = .node p .joinFails

/-- A step of the recovery thread. -/
theorem steps_ownRecovery {p : String} {r : RsmNode} {x : NodeProcess} {e : NodeEvent}
    (he : e = .goesOn ∨ e = .joinFails) (hp : s p = .up r) (hstep : r.step V p e = some x) :
    (clusterSystem V).Steps (OwnRecovery p) s (Function.update s p x) := by
  refine Relation.ReflTransGen.single ⟨.node p e, ?_, ?_⟩
  · rcases he with rfl | rfl
    · exact Or.inl rfl
    · exact Or.inr rfl
  · simp only [clusterSystem, hp, hstep, Option.map_some]

/-- The recovery thread comes to the end of the view change without another view. -/
def Settles (V : ViewSeq) (p : String) (vid : ℕ) (s : String → NodeProcess) : Prop :=
  ∃ s' r', (clusterSystem V).Steps (OwnRecovery p) s s' ∧ s' p = .up r' ∧ r'.vid_commit = vid ∧
    r'.inviewchange = false

/-- One step more before the view change ends. -/
theorem Settles.of_step {p : String} {r : RsmNode} {x : NodeProcess} {e : NodeEvent} {vid : ℕ}
    (he : e = .goesOn ∨ e = .joinFails) (hp : s p = .up r) (hstep : r.step V p e = some x)
    (h : Settles V p vid (Function.update s p x)) : Settles V p vid s := by
  obtain ⟨s', r', hsteps, hrest⟩ := h
  exact ⟨s', r', (steps_ownRecovery he hp hstep).trans hsteps, hrest⟩

variable {p : String} {r : RsmNode} {vid : ℕ}

/-- A node that is done. -/
theorem settles_goToSleep (hvid : r.vid_commit = vid) (hp : s p = .up (r.goToSleep true)) :
    Settles V p vid s :=
  ⟨s, _, Relation.ReflTransGen.refl, hp, hvid, rfl⟩

/-- A node that was synchronising for the view that it has. -/
theorem settles_syncs (hvid : r.vid_commit = vid) (hsync : r.vid_insync = some r.vid_commit)
    (hpc : r.recovery = .syncs) (hp : s p = .up r) : Settles V p vid s := by
  have hstep : r.step V p .goesOn = some (.up ({ r with insync := false }.goToSleep true)) := by
    simp only [RsmNode.step, hpc, RsmNode.synced, if_pos hsync]
  refine Settles.of_step (Or.inl rfl) hp hstep ?_
  exact settles_goToSleep (r := { r with insync := false }) hvid (Function.update_self ..)

/-- After one pass of its loop, the recovery thread of a member has at most to synchronise. -/
theorem settles_pass (hvid : r.vid_commit = vid) (hmem : p ∈ V.view vid)
    (hp : s p = .up (r.pass V.view p)) : Settles V p vid s := by
  subst hvid
  unfold RsmNode.pass at hp
  dsimp only at hp
  rw [if_pos (isamember_iff.mpr hmem)] at hp
  split_ifs at hp
  · exact settles_syncs (r := { r with vid_insync := _, recovery := .syncs }) rfl rfl rfl hp
  · exact settles_goToSleep (r := { r with vid_insync := some r.vid_commit }) rfl hp

/-- The recovery thread of a member goes through its loop from where it is. -/
theorem settles_of_pass {e : NodeEvent} {r₁ : RsmNode} (he : e = .goesOn ∨ e = .joinFails)
    (hp : s p = .up r) (hstep : r.step V p e = some (.up (r₁.pass V.view p)))
    (hvid : r₁.vid_commit = vid) (hmem : p ∈ V.view vid) : Settles V p vid s :=
  .of_step he hp hstep (settles_pass hvid hmem (Function.update_self ..))

/-- The recovery thread of a member ends the view change, wherever it is. -/
theorem settles_of_member (hmem : p ∈ V.view r.vid_commit) (hp : s p = .up r) :
    Settles V p r.vid_commit s := by
  cases hpc : r.recovery with
  | begins | sleeps | waits _ =>
    have hstep : r.step V p .goesOn = some (.up (r.pass V.view p)) := by
      simp only [RsmNode.step, hpc]
    exact settles_of_pass (Or.inl rfl) hp hstep rfl hmem
  | joins =>
    -- The call fails although the node is a member by now, and it sleeps first.
    have hstep : r.step V p .joinFails = some (.up { r with recovery := .sleeps }) := by
      simp only [RsmNode.step, if_pos hpc]
    refine Settles.of_step (Or.inr rfl) hp hstep ?_
    exact settles_of_pass (Or.inl rfl) (Function.update_self ..) rfl rfl hmem
  | syncs =>
    by_cases hsync : r.vid_insync = some r.vid_commit
    · exact settles_syncs rfl hsync hpc hp
    · -- There was a new view since the synchronisation began, and the loop starts again.
      have hstep : r.step V p .goesOn =
          some (.up ({ r with insync := false }.pass V.view p)) := by
        simp only [RsmNode.step, hpc, RsmNode.synced, if_neg hsync]
      exact settles_of_pass (Or.inl rfl) hp hstep rfl hmem

/-- Whatever happens, the recovery thread of a node does not wait for a signal during a view change.
A view change is over only in a view that the node is a member of and has synchronised for, and
its requests are numbered from one in that view. Every request for its state is answered with
`BUSY`, and it never takes over a state. A node that is a member of its view ends the view change by
itself, even when all calls of `join` fail. -/
theorem recovery_settles (h : (clusterSystem V).Reachable System.anything s)
    (hp : s p = .up r) :
    (r.recovery = .waits false → r.inviewchange = false) ∧
      (r.inviewchange = false → p ∈ V.view r.vid_commit ∧ r.vid_insync = some r.vid_commit ∧
        r.myvs = ⟨r.vid_commit, 1⟩) ∧
      (∀ stf last vid, r.transferreq stf last vid = none) ∧ r.last_myvs = ⟨0, 0⟩ ∧
      (p ∈ V.view r.vid_commit → ∃ s' r', (clusterSystem V).Steps (OwnRecovery p) s s' ∧
        s' p = .up r' ∧ r'.vid_commit = r.vid_commit ∧ r'.inviewchange = false) := by
  have hinv := nodeInv_of_reachable h p r hp
  refine ⟨hinv.awake, hinv.settled, ?_, hinv.last, fun hmem => settles_of_member hmem hp⟩
  intro stf last vid
  simp [RsmNode.transferreq, hinv.insync]

/-- Node `b` joins in the second view, and learns of the third while it waits. -/
theorem recovery_settles_third : ∃ s r,
    (clusterSystem leaveAndReturn).Reachable System.anything s ∧ s "b" = .up r ∧
      r.recovery = .waits true ∧ r.inviewchange = true ∧ r.transferreq none ⟨0, 0⟩ 2 = none := by
  have hrun : ((clusterSystem leaveAndReturn).exec (fun _ => .off)
      [.start "b" "a", .node "b" .goesOn, .node "b" .joinFails, .node "b" .goesOn,
        .node "b" (.joined 2), .node "b" (.commit 3)]).map (fun s => s "b") =
      some (.up ⟨⟨"a", 3⟩, some 2, false, true, ⟨2, 1⟩, ⟨0, 0⟩, .waits true⟩) := by decide
  obtain ⟨s, hexec, hb⟩ := Option.map_eq_some_iff.mp hrun
  have hreach := System.Reachable.of_exec hexec rfl
  exact ⟨s, _, hreach, hb, rfl, rfl, (recovery_settles hreach hb).2.2.1 none ⟨0, 0⟩ 2⟩

end Cluster

/-! ## The nodes and their primary -/

section Refinement

variable {V : ViewSeq} {s s' : String → NodeProcess}

/-- The nodes without their recovery threads. -/
def processes (s : String → NodeProcess) : String → Process := NodeProcess.process ∘ s

/-- What a step is for the nodes without their recovery threads. To come to a view through `join` is
the same as to be informed of it. -/
def ClusterEvent.observed : ClusterEvent → Option RsmEvent
  | .start p first => some (.start p first)
  | .node p (.commit vid) | .node p (.joined vid) => some (.commit p vid)
  | .node _ .joinFails | .node _ .goesOn => none

/-- The runs in which a node that comes to a later view knows its primary, or the one before it. -/
def Told (V : ViewSeq) (s : String → NodeProcess) (e : ClusterEvent) : Prop :=
  ∀ e' ∈ e.observed, Informed V (processes s) e'

instance (V : ViewSeq) (s : String → NodeProcess) (e : ClusterEvent) : Decidable (Told V s e) :=
  inferInstanceAs (Decidable (∀ e' ∈ e.observed, Informed V (processes s) e'))

/-- The primary and the view after `commit_change_wo`. -/
theorem toRsmState_commitChangeWo (view : ℕ → List String) (r : RsmNode) (vid : ℕ) :
    (r.commitChangeWo view vid).map RsmNode.toRsmState =
      r.toRsmState.commitChangeWo view vid := by
  unfold RsmNode.commitChangeWo RsmState.commitChangeWo
  split_ifs
  · rfl
  · rw [Option.map_map]
    rfl

/-- The primary and the view after the constructor. -/
theorem toRsmState_construct (view : ℕ → List String) (first me : String) :
    (RsmNode.construct view first me).map RsmNode.toRsmState =
      RsmState.construct view first me := by
  unfold RsmNode.construct RsmState.construct
  split_ifs
  · exact toRsmState_commitChangeWo view _ 1
  · rfl

/-- The loop of the recovery thread leaves the primary and the view as they are. -/
theorem toRsmState_pass (view : ℕ → List String) (me : String) (r : RsmNode) :
    (r.pass view me).toRsmState = r.toRsmState := by
  unfold RsmNode.pass
  dsimp only
  split_ifs <;> rfl

/-- So does the synchronisation. -/
theorem toRsmState_synced (view : ℕ → List String) (me : String) (r : RsmNode) :
    (r.synced view me).toRsmState = r.toRsmState := by
  unfold RsmNode.synced
  dsimp only
  split_ifs
  · rfl
  · exact toRsmState_pass view me _

/-- A process with the result of a step, without its recovery thread. -/
theorem process_ofOption (o : Option RsmNode) :
    (NodeProcess.ofOption o).process = .ofOption (o.map RsmNode.toRsmState) := by
  cases o <;> rfl

/-- A step of a node comes to a view, or leaves the primary and the view as they are. -/
theorem process_of_step {me : String} {r : RsmNode} {e : NodeEvent} {x : NodeProcess}
    (h : r.step V me e = some x) :
    (∃ vid ≤ V.last, (ClusterEvent.node me e).observed = some (.commit me vid) ∧
      x.process = .ofOption (r.toRsmState.commitChangeWo V.view vid)) ∨
    (ClusterEvent.node me e).observed = none ∧ x.process = .up r.toRsmState := by
  cases e with
  | commit vid =>
    simp only [RsmNode.step] at h
    split_ifs at h with hvid
    refine Or.inl ⟨vid, hvid, rfl, ?_⟩
    rw [← Option.some.inj h, process_ofOption, toRsmState_commitChangeWo]
  | joined vid =>
    simp only [RsmNode.step] at h
    split_ifs at h with hvid
    refine Or.inl ⟨vid, hvid.2, rfl, ?_⟩
    rw [← Option.some.inj h, process_ofOption, Option.map_map, ← toRsmState_commitChangeWo]
    exact congrArg _ (congrArg (Option.map · _) (funext fun r' => toRsmState_pass V.view me r'))
  | joinFails =>
    simp only [RsmNode.step] at h
    split_ifs at h
    exact Or.inr ⟨rfl, (Option.some.inj h).symm ▸ rfl⟩
  | goesOn =>
    refine Or.inr ⟨rfl, ?_⟩
    simp only [RsmNode.step] at h
    split at h
    · cases h
    · rw [← Option.some.inj h]
      exact congrArg Process.up (toRsmState_synced V.view me r)
    all_goals
      rw [← Option.some.inj h]
      exact congrArg Process.up (toRsmState_pass V.view me r)

/-- A new process, without its recovery thread. -/
theorem processes_update (s : String → NodeProcess) (p : String) (x : NodeProcess) :
    processes (Function.update s p x) = Function.update (processes s) p x.process :=
  Function.comp_update ..

/-- A node that runs, without its recovery thread. -/
theorem processes_up {p : String} {r : RsmNode} (hp : s p = .up r) :
    processes s p = .up r.toRsmState := congrArg NodeProcess.process hp

/-- The nodes without their recovery threads are those of `rsmSystem`. -/
theorem reachable_processes (h : (clusterSystem V).Reachable (Told V) s) :
    (rsmSystem V).Reachable (Informed V) (processes s) := by
  refine h.invariant (I := fun t => (rsmSystem V).Reachable (Informed V) (processes t)) ?_ ?_
  · rintro _ rfl
    exact System.Reachable.of_init rfl
  · intro t e t' hI hG hstep
    -- A step that is observed is one of `rsmSystem`.
    have hone : ∀ {e'}, e.observed = some e' → (rsmSystem V).step (processes t) e' =
        some (processes t') → (rsmSystem V).Reachable (Informed V) (processes t') :=
      fun he hs => hI.steps (.single ⟨_, hG _ he, hs⟩)
    obtain ⟨p, first, rfl, hno, rfl⟩ | ⟨p, e', r, x, rfl, hp, hx, rfl⟩ := cluster_step_cases hstep
    · refine hone rfl ?_
      rw [processes_update, process_ofOption, toRsmState_construct]
      exact if_neg hno
    · obtain ⟨vid, hvid, hobs, hx'⟩ | ⟨-, hx'⟩ := process_of_step hx
      · refine hone hobs ?_
        rw [processes_update, hx']
        simp only [rsmSystem, next, processes_up hp, if_pos hvid]
      · have hsame : processes (Function.update t p x) = processes t := by
          rw [processes_update, hx', ← processes_up hp]
          exact Function.update_eq_self p (processes t)
        rw [hsame]
        exact hI

/-- What a client takes from the answer of a node. -/
theorem initMembers_clientMembers (view : ℕ → List String) (r : RsmNode) :
    initMembers (r.clientMembers view) = some ⟨r.primary, view r.vid_commit⟩ := by
  simp [initMembers, RsmNode.clientMembers]

/-- While node `p` takes itself for the primary of its view, it is a member of it, and every node
that has the same view sends clients to node `p`; no other one takes itself for the primary. -/
theorem members_lead_to_primary (hlast : 1 ≤ V.last) (h : (clusterSystem V).Reachable (Told V) s)
    {p q : String} {r r' : RsmNode} (hp : s p = .up r) (hq : s q = .up r')
    (hprimary : r.amiprimary p = true) (hview : r'.vid_commit = r.vid_commit) :
    p ∈ V.view r.vid_commit ∧
      initMembers (r'.clientMembers V.view) = some ⟨p, V.view r.vid_commit⟩ ∧
      (r'.amiprimary q = true → q = p) := by
  have hinv : ∀ q, ProcessInv V (processes s q) := by
    refine (reachable_processes h).invariant
      (I := fun t : String → Process => ∀ q, ProcessInv V (t q)) ?_ ?_
    · rintro _ rfl q
      trivial
    · exact fun _ _ _ hI hG hs => processInv_next hlast hI hG hs
  have hpinv : ProcessInv V (.up r.toRsmState) := by
    rw [← processes_up hp]
    exact hinv p
  have hqinv : ProcessInv V (.up r'.toRsmState) := by
    rw [← processes_up hq]
    exact hinv q
  simp only [RsmNode.amiprimary, Bool.and_eq_true, decide_eq_true_eq, Bool.not_eq_true'] at hprimary
  obtain ⟨hprim, hover⟩ := hprimary
  -- The view change is over, so the node is a member of its view, which is not the empty one.
  have hmem : p ∈ V.view r.vid_commit := ((nodeInv_of_reachable h p r hp).settled hover).1
  have hpos : 1 ≤ r.vid_commit := by
    by_contra hzero
    rw [show r.vid_commit = 0 by omega, V.view_zero] at hmem
    exact List.not_mem_nil hmem
  have hsame : r'.primary = p :=
    calc r'.primary = primaryOf V.view r'.vid_commit := hqinv.2 (by omega)
      _ = primaryOf V.view r.vid_commit := by rw [hview]
      _ = r.primary := (hpinv.2 hpos).symm
      _ = p := hprim
  refine ⟨hmem, ?_, ?_⟩
  · rw [initMembers_clientMembers, hsame, hview]
  · intro hq'
    simp only [RsmNode.amiprimary, Bool.and_eq_true, decide_eq_true_eq] at hq'
    rw [← hq'.1, hsame]

/-- Node `b` takes over in the fourth view, and node `c` sends clients there. -/
theorem members_lead_to_primary_fourth : ∃ s r r',
    (clusterSystem leaveAndReturn).Reachable (Told leaveAndReturn) s ∧ s "b" = .up r ∧
      s "c" = .up r' ∧ r.amiprimary "b" = true ∧
      initMembers (r'.clientMembers leaveAndReturn.view) = some ⟨"b", ["b", "c"]⟩ := by
  have hrun : ((clusterSystem leaveAndReturn).execGuarded (Told leaveAndReturn) (fun _ => .off)
      [.start "b" "a", .node "b" .goesOn, .node "b" (.joined 2), .start "c" "a",
        .node "c" .goesOn, .node "c" (.joined 3), .node "b" (.commit 3), .node "c" (.commit 4),
        .node "b" (.commit 4), .node "b" .goesOn, .node "b" .goesOn]).map
      (fun s => (s "b", s "c")) =
      some (.up ⟨⟨"b", 4⟩, some 4, false, false, ⟨4, 1⟩, ⟨0, 0⟩, .waits false⟩,
        .up ⟨⟨"b", 4⟩, some 3, false, true, ⟨3, 1⟩, ⟨0, 0⟩, .waits true⟩) := by decide
  obtain ⟨s, hexec, hdata⟩ := Option.map_eq_some_iff.mp hrun
  obtain ⟨hb, hc⟩ := Prod.mk.inj hdata
  have hreach := System.Reachable.of_execGuarded hexec rfl
  exact ⟨s, _, _, hreach, hb, hc, rfl,
    (members_lead_to_primary (by decide) hreach hb hc rfl rfl).2.1⟩

end Refinement

end SimpleDfs.Rsm
