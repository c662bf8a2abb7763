import SimpleDfs.Base.Mutexes

/-!
# The mutexes of a node

A node has three layers, each with a mutex of its own: `rsm_mutex` of the replicated state machine,
`cfg_mutex` of the configuration, and one `pxs_mutex` each of the proposer and of the acceptor. The
rule of `rsm.cc` is that a layer releases its mutex before it calls up, but may keep it when it
calls down. Below them there are the mutexes of the handles.

This module has the functions of the layers by what they lock and unlock, one script for each of
them, put together like the functions are. What a function finds on its way (which node answers,
which view is newer) is an argument. The threads of a node are the heartbeater, the recovery thread
and the handlers of the calls from other nodes; the two loops are cut where they wait.

`proposer::prepare` does not follow the rule: when a node answers that the instance is old, it
commits the value with the mutex of the proposer, and the commit calls up into the configuration and
into the replicated state machine. The handler `config::heartbeat`, on the other hand, asks the
proposer whether it is running while it has `cfg_mutex`, which is a call down. `stuck_iff` says that
these two together can stop a node for ever, and that nothing else can.
-/

namespace SimpleDfs.Locking

open Mutexes

/-- The mutexes of a node. -/
inductive Mutex where
  /-- `rsm::rsm_mutex`. -/
  | rsm
  /-- `rsm::invoke_mutex`. -/
  | invoke
  /-- `config::cfg_mutex`. -/
  | cfg
  /-- `proposer::pxs_mutex`. -/
  | proposer
  /-- `acceptor::pxs_mutex`. -/
  | acceptor
  /-- `handle_mgr::handle_mutex`. -/
  | handle
  /-- `hinfo::cl_mutex` of the handle of a node. -/
  | cl (m : String)
  deriving DecidableEq, Repr

/-- What a function locks and unlocks. -/
abbrev Script := List (Action Mutex)

/-! ## Handles -/

/-- `handle_mgr::get_handle`. -/
def getHandle : Script := within .handle []

/-- `handle_mgr::done_handle`. -/
def doneHandle : Script := within .handle []

/-- `handle_mgr::delete_handle`. -/
def deleteHandle : Script := within .handle []

/-- `handle::safebind` for node `m`. -/
def safebind (m : String) : Script := within (.cl m) []

/-- How a node is called by a function that has the mutex `x`: it makes a handle, gives up `x`,
calls `safebind` and the node, takes `x` again, does `rest` and drops the handle. There is no handle
(`found`) for a node whose handle is about to be deleted. -/
def calling (x : Mutex) (m : String) (found : Bool) (rest : Script) : Script :=
  getHandle ++ (outside x (if found then safebind m else []) ++
    (rest ++ if found then doneHandle else []))

/-! ## Calls up

From the acceptor into the configuration, and from there into the replicated state machine. -/

/-- `config::get_view`. -/
def getView : Script := within .cfg []

/-- `config::ismember`. -/
def ismember : Script := within .cfg []

/-- `config::restore`. -/
def restore : Script := within .cfg []

/-- `rsm::set_primary`. -/
def setPrimary : Script := getView ++ getView

/-- `rsm::commit_change_wo`, for a view that is newer or not. -/
def commitChangeWo (newer : Bool) : Script := if newer then setPrimary ++ ismember else []

/-- `rsm::commit_change`. -/
def commitChange (newer : Bool) : Script := within .rsm (commitChangeWo newer)

/-- What `config::paxos_commit` finds. -/
structure Upcall where
  /-- The members that are not in the new view. -/
  gone : List String
  /-- The view is newer than that of the replicated state machine. -/
  newer : Bool
  deriving DecidableEq, Repr

/-- `config::paxos_commit`. -/
def paxosCommit (u : Upcall) : Script :=
  within .cfg ((u.gone.flatMap fun _ => deleteHandle) ++ outside .cfg (commitChange u.newer))

/-- `acceptor::commit_wo`, which does something for a new instance only. -/
def commitWo : Option Upcall → Script
  | none => []
  | some u => outside .acceptor (paxosCommit u)

/-- `acceptor::commit`. -/
def commit (u : Option Upcall) : Script := within .acceptor (commitWo u)

/-- `acceptor::preparereq`. -/
def preparereq : Script := within .acceptor []

/-- `acceptor::acceptreq`. -/
def acceptreq : Script := within .acceptor []

/-- `acceptor::decidereq`. -/
def decidereq (u : Option Upcall) : Script := within .acceptor (commitWo u)

/-! ## The proposer -/

/-- `proposer::isrunning`. -/
def isrunning : Script := within .proposer []

/-- What `proposer::prepare` gets from a node. -/
inductive Reply where
  /-- No handle, no answer, or an answer for the instance that it asks for. -/
  | other (found : Bool)
  /-- The instance is an old one, and the acceptor of the proposer may not know it. -/
  | old (u : Option Upcall)
  deriving DecidableEq, Repr

/-- `proposer::prepare`, which ends at the first node for which the instance is old. -/
def prepare : List (String × Reply) → Script
  | [] => []
  | (m, .other found) :: replies => calling .proposer m found [] ++ prepare replies
  | (m, .old u) :: _ => calling .proposer m true (commit u)

/-- The node has answered that the instance is old. -/
def Reply.isOld : Reply → Bool
  | old _ => true
  | other _ => false

/-- `proposer::prepare` returns false. -/
def refused (replies : List (String × Reply)) : Bool := replies.any fun x => x.2.isOld

/-- `proposer::accept` and `proposer::decide`, which call one node after the other. -/
def callAll (nodes : List (String × Bool)) : Script :=
  nodes.flatMap fun x => calling .proposer x.1 x.2 []

/-- What `proposer::run` finds. -/
structure RunData where
  /-- The answers in `prepare`; none when the proposer is running already. -/
  replies : List (String × Reply)
  /-- The nodes that `accept` calls; none without a majority. -/
  accepts : List (String × Bool)
  /-- The nodes that `decide` calls; none without a majority. -/
  decides : List (String × Bool)
  deriving DecidableEq, Repr

/-- `proposer::run`. -/
def run (r : RunData) : Script :=
  within .proposer (prepare r.replies ++
    if refused r.replies then [] else callAll r.accepts ++ callAll r.decides)

/-! ## The configuration -/

/-- `config::add`, which runs the proposer when the view is still the same. -/
def add (r : Option RunData) : Script := within .cfg (r.elim [] fun r => outside .cfg (run r))

/-- `config::remove_wo`. -/
def removeWo (r : RunData) : Script := outside .cfg (run r)

/-- `config::heartbeat`, which asks the proposer when the views differ. -/
def heartbeat (asks : Bool) : Script := within .cfg (if asks then isrunning else [])

/-- A call of `config::doheartbeat`. -/
structure Ping where
  /-- The node that is called. -/
  m : String
  /-- There is a handle. -/
  found : Bool
  /-- The node was started again, and its handle is deleted. -/
  forgets : Bool
  deriving DecidableEq, Repr

/-- `config::doheartbeat`. -/
def doheartbeat (p : Ping) : Script :=
  calling .cfg p.m p.found (if p.forgets then deleteHandle else [])

/-- A turn of the loop of `config::heartbeater`. -/
structure Turn where
  /-- The nodes that are called. -/
  pings : List Ping
  /-- A node is removed. -/
  remove : Option RunData
  deriving DecidableEq, Repr

/-- `config::heartbeater`, from one wait to the next. -/
def heartbeater (t : Turn) : Script :=
  within .cfg (t.pings.flatMap doheartbeat ++ t.remove.elim [] removeWo)

/-! ## The replicated state machine -/

/-- A turn of the loop in which `rsm::recovery` joins. -/
structure JoinTry where
  /-- The node that is taken for the primary. -/
  primary : String
  /-- There is a handle. -/
  found : Bool
  /-- The view after `rsm::join`, if it has succeeded: is it newer? -/
  joined : Option Bool
  deriving DecidableEq, Repr

/-- `rsm::join`. -/
def join (t : JoinTry) : Script :=
  calling .rsm t.primary t.found (if t.joined.isSome then restore else [])

/-- What `rsm::recovery` does with the result of `rsm::join`: it commits the view, or sleeps. -/
def afterJoin (t : JoinTry) : Script := t.joined.elim (outside .rsm []) commitChangeWo

/-- `rsm::sync_with_backups`. -/
def syncWithBackups : Script := outside .rsm (within .invoke [])

/-- `rsm::sync_with_primary`, which does nothing. -/
def syncWithPrimary : Script := []

/-- A turn of the loop of `rsm::recovery`. -/
structure Pass where
  /-- The attempts to join. -/
  joins : List JoinTry
  /-- The node is the primary. -/
  primary : Bool
  deriving DecidableEq, Repr

/-- A turn of the loop of `rsm::recovery`, up to where it waits or starts again. -/
def recoveryPass (p : Pass) : Script :=
  (p.joins.flatMap fun t => ismember ++ (join t ++ afterJoin t)) ++
    (ismember ++ if p.primary then syncWithBackups else syncWithPrimary)

/-- `rsm::recovery`, from one wait to the next. It starts again when there was a new view. -/
def recovery (passes : List Pass) : Script := within .rsm (passes.flatMap recoveryPass)

/-- What `rsm::joinreq` finds. -/
inductive JoinReq where
  /-- The node is a member, or this node is not the primary. -/
  | answered
  /-- The node is added. -/
  | adds (r : Option RunData)
  deriving DecidableEq, Repr

/-- `rsm::joinreq`. -/
def joinreq (j : JoinReq) : Script :=
  within .rsm (ismember ++
    match j with
    | .answered => []
    | .adds r => outside .rsm (add r) ++ ismember)

/-- `rsm::client_members`. -/
def clientMembers : Script := within .rsm getView

/-- `rsm::transferreq`, `rsm::transferdonereq` and `rsm::amiprimary`. -/
def underRsm : Script := within .rsm []

/-! ## Threads -/

/-- The threads of a node. -/
inductive Thread where
  /-- The heartbeater. -/
  | heartbeater (turns : List Turn)
  /-- The recovery thread. -/
  | recovery (rounds : List (List Pass))
  /-- A handler of `heartbeat`. -/
  | heartbeat (asks : Bool)
  /-- A handler of `preparereq`. -/
  | preparereq
  /-- A handler of `acceptreq`. -/
  | acceptreq
  /-- A handler of `decidereq`. -/
  | decidereq (u : Option Upcall)
  /-- A handler of `joinreq`. -/
  | joinreq (j : JoinReq)
  /-- A handler of `members`. -/
  | clientMembers
  /-- A handler of `transferreq` or `transferdonereq`, or a call of `amiprimary`. -/
  | underRsm
  deriving DecidableEq, Repr

namespace Thread

/-- What a thread locks and unlocks. -/
def script : Thread → Script
  | heartbeater turns => turns.flatMap Locking.heartbeater
  | recovery rounds => rounds.flatMap Locking.recovery
  | heartbeat asks => Locking.heartbeat asks
  | preparereq => Locking.preparereq
  | acceptreq => Locking.acceptreq
  | decidereq u => Locking.decidereq u
  | joinreq j => Locking.joinreq j
  | clientMembers => Locking.clientMembers
  | underRsm => Locking.underRsm

end Thread

/-- The first node for which the instance is old knows a value that the acceptor does not. -/
def raises : List (String × Reply) → Bool
  | [] => false
  | (_, .other _) :: replies => raises replies
  | (_, .old u) :: _ => u.isSome

namespace Thread

/-- The thread runs the proposer, which commits in `prepare`. -/
def Commits : Thread → Prop
  | heartbeater turns => ∃ t ∈ turns, ∃ r, t.remove = some r ∧ raises r.replies = true
  | joinreq (.adds r) => ∃ r', r = some r' ∧ raises r'.replies = true
  | _ => False

/-- The thread is a handler of `heartbeat` that asks the proposer. -/
def Asks : Thread → Prop
  | heartbeat asks => asks = true
  | _ => False

end Thread

/-! ## Orders -/

/-- An order of the mutexes that all functions keep to, apart from the two exceptions. -/
structure Layers (rank : Mutex → ℕ) : Prop where
  /-- The replicated state machine calls down into the configuration. -/
  rsm_cfg : rank .rsm < rank .cfg
  /-- The configuration uses handles. -/
  cfg_handle : rank .cfg < rank .handle
  /-- The proposer calls the acceptor. -/
  proposer_acceptor : rank .proposer < rank .acceptor
  /-- The proposer uses handles. -/
  proposer_handle : rank .proposer < rank .handle

section Layers

variable {rank : Mutex → ℕ} {held : List Mutex}

/-- One mutex more of a lower rank. -/
theorem below_cons {x m : Mutex} (h : Below rank held m)
    (hx : rank x < rank m) : Below rank (x :: held) m := by
  intro y hy
  rcases List.mem_cons.mp hy with rfl | hy
  · exact hx
  · exact h y hy

/-- Nothing is taken before. -/
theorem below_nil (m : Mutex) : Below rank [] m := nofun

/-- A mutex is taken and given up again. -/
theorem runs_within {m : Mutex} (h : Below rank held m) : Runs rank held (within m []) held :=
  .within h .nil

/-- A node is called. -/
theorem runs_calling {x : Mutex} {m : String} {found : Bool} {rest : Script}
    (hx : rank x < rank .handle) (hrest : Runs rank [x] rest [x]) :
    Runs rank [x] (calling x m found rest) [x] := by
  have hhandle : Runs rank [x] (within .handle []) [x] := runs_within (below_cons (below_nil _) hx)
  refine hhandle.append (.append (.outside (below_nil _) ?_) (hrest.append ?_))
  · cases found with
    | false => exact .nil
    | true => exact runs_within (below_nil _)
  · cases found with
    | false => exact .nil
    | true => exact hhandle

variable (h : Layers rank)
include h

/-- `commit_change_wo` under `rsm_mutex`. -/
theorem Layers.commitChangeWo (hcfg : Below rank held .cfg) (newer : Bool) :
    Runs rank (.rsm :: held) (commitChangeWo newer) (.rsm :: held) := by
  have hunder : Runs rank (.rsm :: held) (within .cfg []) (.rsm :: held) :=
    runs_within (below_cons hcfg h.rsm_cfg)
  cases newer with
  | false => exact .nil
  | true => exact (hunder.append hunder).append hunder

/-- `paxos_commit` with mutexes of lower ranks. -/
theorem Layers.paxosCommit (hrsm : Below rank held .rsm) (hcfg : Below rank held .cfg)
    (hhandle : Below rank held .handle) (u : Upcall) : Runs rank held (paxosCommit u) held := by
  refine .within hcfg (.append (.flatMap fun m _ => ?_) (.outside hcfg ?_))
  · exact runs_within (below_cons hhandle h.cfg_handle)
  · exact .within hrsm (h.commitChangeWo hcfg u.newer)

/-- `commit_wo` of a handler. -/
theorem Layers.commitWo (u : Option Upcall) :
    Runs rank [.acceptor] (commitWo u) [.acceptor] := by
  cases u with
  | none => exact .nil
  | some u =>
    exact .outside (below_nil _) (h.paxosCommit (below_nil _) (below_nil _) (below_nil _) u)

/-- `prepare`, which is above the other layers when it commits. -/
theorem Layers.prepare (replies : List (String × Reply))
    (hraises : raises replies = true → rank .proposer < rank .rsm) :
    Runs rank [.proposer] (prepare replies) [.proposer] := by
  induction replies with
  | nil => exact .nil
  | cons x replies ih =>
    obtain ⟨m, reply⟩ := x
    cases reply with
    | other found => exact (runs_calling h.proposer_handle .nil).append (ih hraises)
    | old u =>
      refine runs_calling h.proposer_handle
        (.within (below_cons (below_nil _) h.proposer_acceptor) ?_)
      cases u with
      | none => exact .nil
      | some u =>
        have hrsm := hraises rfl
        have hcfg := Nat.lt_trans hrsm h.rsm_cfg
        exact .outside (below_cons (below_nil _) h.proposer_acceptor)
          (h.paxosCommit (below_cons (below_nil _) hrsm) (below_cons (below_nil _) hcfg)
            (below_cons (below_nil _) h.proposer_handle) u)

/-- `run` of the proposer. -/
theorem Layers.run (r : RunData) (hraises : raises r.replies = true → rank .proposer < rank .rsm) :
    Runs rank [] (run r) [] := by
  have hcalls : ∀ nodes, Runs rank [.proposer] (callAll nodes) [.proposer] :=
    fun nodes => .flatMap fun x _ => runs_calling h.proposer_handle .nil
  refine .within (below_nil _) ((h.prepare r.replies hraises).append ?_)
  split_ifs
  · exact .nil
  · exact (hcalls r.accepts).append (hcalls r.decides)

/-- A turn of the heartbeater. -/
theorem Layers.heartbeater (t : Turn)
    (hraises : ∀ r, t.remove = some r → raises r.replies = true → rank .proposer < rank .rsm) :
    Runs rank [] (heartbeater t) [] := by
  refine .within (below_nil _) (.append (.flatMap fun p _ => ?_) ?_)
  · refine runs_calling h.cfg_handle ?_
    split_ifs
    · exact runs_within (below_cons (below_nil _) h.cfg_handle)
    · exact .nil
  · cases hremove : t.remove with
    | none => exact .nil
    | some r => exact .outside (below_nil _) (h.run r (hraises r hremove))

/-- The recovery thread. -/
theorem Layers.recovery (passes : List Pass) : Runs rank [] (recovery passes) [] := by
  have hunder : Runs rank [.rsm] (within .cfg []) [.rsm] :=
    runs_within (below_cons (below_nil _) h.rsm_cfg)
  refine .within (below_nil _) (.flatMap fun p _ => ?_)
  refine .append (.flatMap fun t _ => ?_) (hunder.append ?_)
  · have hjoin : Runs rank [.rsm] (join t) [.rsm] := by
      refine runs_calling (Nat.lt_trans h.rsm_cfg h.cfg_handle) ?_
      split_ifs
      · exact hunder
      · exact .nil
    refine hunder.append (hjoin.append ?_)
    unfold afterJoin
    cases t.joined with
    | none => exact .outside (below_nil _) .nil
    | some newer => exact h.commitChangeWo (below_nil _) newer
  · split_ifs
    · exact .outside (below_nil _) (runs_within (below_nil _))
    · exact .nil

/-- `joinreq`. -/
theorem Layers.joinreq (j : JoinReq)
    (hraises : ∀ r, j = .adds (some r) → raises r.replies = true → rank .proposer < rank .rsm) :
    Runs rank [] (joinreq j) [] := by
  have hunder : Runs rank [.rsm] (within .cfg []) [.rsm] :=
    runs_within (below_cons (below_nil _) h.rsm_cfg)
  refine .within (below_nil _) (hunder.append ?_)
  cases j with
  | answered => exact .nil
  | adds r =>
    refine .append (.outside (below_nil _) (.within (below_nil _) ?_)) hunder
    cases r with
    | none => exact .nil
    | some r => exact .outside (below_nil _) (h.run r (hraises r rfl))

/-- Every thread keeps to an order in which the proposer is above the other layers if the thread
commits in `prepare`, and below the configuration if it asks the proposer. -/
theorem Layers.script (t : Thread) (hcommits : t.Commits → rank .proposer < rank .rsm)
    (hasks : t.Asks → rank .cfg < rank .proposer) : Runs rank [] t.script [] := by
  cases t with
  | heartbeater turns =>
    exact .flatMap fun t ht => h.heartbeater t fun r hr hraises => hcommits ⟨t, ht, r, hr, hraises⟩
  | recovery rounds => exact .flatMap fun passes _ => h.recovery passes
  | heartbeat asks =>
    refine .within (below_nil _) ?_
    split_ifs with hask
    · exact runs_within (below_cons (below_nil _) (hasks hask))
    · exact .nil
  | preparereq => exact runs_within (below_nil _)
  | acceptreq => exact runs_within (below_nil _)
  | decidereq u => exact .within (below_nil _) (h.commitWo u)
  | joinreq j =>
    refine h.joinreq j fun r hr hraises => ?_
    subst hr
    exact hcommits ⟨r, rfl, hraises⟩
  | clientMembers =>
    exact .within (below_nil _) (runs_within (below_cons (below_nil _) h.rsm_cfg))
  | underRsm => exact runs_within (below_nil _)

end Layers

/-- The order in which the proposer is below the configuration. -/
def downward : Mutex → ℕ
  | .rsm => 0
  | .cfg => 1
  | .proposer => 2
  | .acceptor => 3
  | .handle => 4
  | .cl _ => 5
  | .invoke => 6

/-- The order in which the proposer is above the other layers. -/
def upward : Mutex → ℕ
  | .proposer => 0
  | .rsm => 1
  | .cfg => 2
  | .acceptor => 3
  | .handle => 4
  | .cl _ => 5
  | .invoke => 6

/-- The ranks of the first order. -/
theorem downward_lt (m : Mutex) : downward m < 7 := by cases m <;> simp [downward]

/-- The ranks of the second order. -/
theorem upward_lt (m : Mutex) : upward m < 7 := by cases m <;> simp [upward]

/-- The first is an order of the layers. -/
theorem layers_downward : Layers downward := by constructor <;> decide

/-- The second is an order of the layers. -/
theorem layers_upward : Layers upward := by constructor <;> decide

/-! ## The cycle -/

/-- `prepare` calls up with the mutex of the proposer. -/
theorem prepare_arrives {replies : List (String × Reply)} (h : raises replies = true) :
    Arrives upward [.proposer] (prepare replies) [.proposer] .cfg := by
  induction replies with
  | nil => cases h
  | cons x replies ih =>
    obtain ⟨m, reply⟩ := x
    cases reply with
    | other found =>
      exact .append_right (runs_calling layers_upward.proposer_handle .nil) (ih h)
    | old u =>
      cases u with
      | none => cases h
      | some u =>
        have hhandle : Runs upward [.proposer] getHandle [.proposer] :=
          runs_within (below_cons (below_nil _) layers_upward.proposer_handle)
        have hbind : Runs upward [.proposer] (outside .proposer (safebind m)) [.proposer] :=
          .outside (below_nil _) (runs_within (below_nil _))
        have hcommit : Arrives upward [.proposer] (commit (some u)) [.proposer] .cfg :=
          .within (below_cons (below_nil _) layers_upward.proposer_acceptor) (.outside .lock)
        exact .append_right hhandle (.append_right hbind hcommit.append_left)

/-- So does `run`. -/
theorem run_arrives {r : RunData} (h : raises r.replies = true) :
    Arrives upward [] (run r) [.proposer] .cfg :=
  .within (below_nil _) (prepare_arrives h).append_left

/-- So does a thread that commits in `prepare`. -/
theorem Thread.Commits.arrives {t : Thread} (h : t.Commits) :
    Arrives upward [] t.script [.proposer] .cfg := by
  have hproposer : upward .proposer < upward .rsm := by decide
  cases t with
  | heartbeater turns =>
    obtain ⟨t, ht, r, hremove, hraises⟩ := h
    refine .flatMap ht (fun t _ => layers_upward.heartbeater t fun _ _ _ => hproposer) ?_
    have hpings : Runs upward [.cfg] (t.pings.flatMap doheartbeat) [.cfg] := by
      refine .flatMap fun p _ => runs_calling layers_upward.cfg_handle ?_
      split_ifs
      · exact runs_within (below_cons (below_nil _) layers_upward.cfg_handle)
      · exact .nil
    refine .within (below_nil _) (.append_right hpings ?_)
    rw [hremove]
    exact .outside (run_arrives hraises)
  | joinreq j =>
    cases j with
    | answered => exact h.elim
    | adds r =>
      obtain ⟨r', rfl, hraises⟩ := h
      have hmember : Runs upward [.rsm] ismember [.rsm] :=
        runs_within (below_cons (below_nil _) layers_upward.rsm_cfg)
      have hadd : Arrives upward [] (add (some r')) [.proposer] .cfg :=
        .within (below_nil _) (.outside (run_arrives hraises))
      exact .within (below_nil _) (.append_right hmember (Arrives.outside hadd).append_left)
  | recovery => exact h.elim
  | heartbeat => exact h.elim
  | preparereq => exact h.elim
  | acceptreq => exact h.elim
  | decidereq => exact h.elim
  | clientMembers => exact h.elim
  | underRsm => exact h.elim

/-- What a thread does that asks the proposer. -/
theorem Thread.Asks.script {t : Thread} (h : t.Asks) :
    t.script = [.lock .cfg, .lock .proposer, .unlock .proposer, .unlock .cfg] := by
  cases t with
  | heartbeat asks =>
    obtain rfl : asks = true := h
    rfl
  | heartbeater => exact h.elim
  | recovery => exact h.elim
  | preparereq => exact h.elim
  | acceptreq => exact h.elim
  | decidereq => exact h.elim
  | joinreq => exact h.elim
  | clientMembers => exact h.elim
  | underRsm => exact h.elim

/-- A thread that commits in `prepare` does not ask the proposer. -/
theorem Thread.Commits.not_asks {t : Thread} (h : t.Commits) : ¬t.Asks := by
  cases t <;> first | exact h.elim | exact id

/-- A thread that commits in `prepare` and one that asks the proposer can stop each other. -/
theorem exists_stuck {ι : Type*} [DecidableEq ι] {ts : ι → Thread} {i j : ι}
    (hi : (ts i).Commits) (hj : (ts j).Asks) :
    ∃ s, (threads fun i => (ts i).script).Reachable System.anything s ∧ WaitsFor {i, j} s := by
  have hij : i ≠ j := fun heq => hi.not_asks (heq ▸ hj)
  obtain ⟨a, b, hscript, hruns⟩ := hi.arrives
  -- The first one runs alone up to where it has the mutex of the proposer and calls up.
  have hhas : Has (fun _ : Mutex => (none : Option ι)) i [] :=
    fun m => ⟨nofun, nofun⟩
  obtain ⟨s, hsteps, hrest, howner, halone⟩ := steps_solo (i := i)
    (s := ⟨fun i => (ts i).script, fun _ => none⟩) hscript hruns List.nodup_nil hhas
    nofun
  have hcfg : s.owner .cfg = none := by
    refine Option.eq_none_iff_forall_ne_some.mpr fun k hk => ?_
    obtain rfl := halone .cfg k hk
    have hmem := (howner .cfg).mp hk
    cases List.mem_singleton.mp hmem
  -- The other one takes `cfg_mutex`.
  have hj' : s.rest j = [.lock .cfg, .lock .proposer, .unlock .proposer, .unlock .cfg] := by
    rw [hrest, Function.update_of_ne hij.symm]
    exact hj.script
  have hstep : s.step j = some ⟨Function.update s.rest j
      [.lock .proposer, .unlock .proposer, .unlock .cfg],
      Function.update s.owner .cfg (some j)⟩ := by
    unfold State.step
    rw [hj']
    exact if_pos hcfg
  have hi' : Function.update s.rest j [.lock .proposer, .unlock .proposer, .unlock .cfg] i =
      .lock .cfg :: b := by
    rw [Function.update_of_ne hij, hrest, Function.update_self]
  have hcfg' : Function.update s.owner .cfg (some j) .cfg = some j := Function.update_self _ _ _
  have hproposer : Function.update s.owner .cfg (some j) .proposer = some i := by
    rw [Function.update_of_ne (by decide)]
    exact (howner .proposer).mpr List.mem_cons_self
  exact ⟨_, ⟨_, rfl, hsteps.tail ⟨j, trivial, hstep⟩⟩,
    waitsFor_of_two hi' (Function.update_self _ _ _) hcfg' hproposer⟩

/-- The threads of a node, whatever they find on their way, can come to where one of them can never
take another step if, and only if, one of them runs the proposer and commits in `prepare`, and
another one is a handler of `heartbeat` that asks the proposer. -/
theorem stuck_iff {ι : Type*} [DecidableEq ι] (ts : ι → Thread) :
    (∃ s i, (threads fun i => (ts i).script).Reachable System.anything s ∧ s.rest i ≠ [] ∧
      ∀ s', (threads fun i => (ts i).script).Steps System.anything s s' → s'.rest i = s.rest i) ↔
    (∃ i, (ts i).Commits) ∧ ∃ i, (ts i).Asks := by
  constructor
  · rintro ⟨s, i, hreach, hi, hstuck⟩
    by_contra hboth
    -- Without one of them, there is an order that all threads keep to.
    have hordered : ∃ rank : Mutex → ℕ, (∀ m, rank m < 7) ∧ Ordered rank s := by
      by_cases hcommits : ∃ i, (ts i).Commits
      · refine ⟨upward, upward_lt, .of_reachable (fun i => ?_) hreach⟩
        exact layers_upward.script (ts i) (fun _ => by decide)
          fun hasks => absurd ⟨hcommits, i, hasks⟩ hboth
      · refine ⟨downward, downward_lt, .of_reachable (fun i => ?_) hreach⟩
        exact layers_downward.script (ts i) (fun hi => absurd ⟨i, hi⟩ hcommits) fun _ => by decide
    obtain ⟨rank, hbound, hordered⟩ := hordered
    obtain ⟨s', hsteps, hne⟩ := hordered.can_go_on hbound hi
    exact hne (hstuck s' hsteps)
  · rintro ⟨⟨i, hi⟩, j, hj⟩
    obtain ⟨s, hreach, hwaits⟩ := exists_stuck hi hj
    refine ⟨s, i, hreach, ?_, fun s' hsteps => (hwaits.steps hsteps).2 i (Or.inl rfl)⟩
    obtain ⟨m, rest, hrest, -⟩ := hwaits i (Or.inl rfl)
    rw [hrest]
    exact List.cons_ne_nil _ _

end SimpleDfs.Locking
