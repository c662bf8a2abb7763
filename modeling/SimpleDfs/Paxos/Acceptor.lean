import Mathlib.Logic.Function.Basic
import SimpleDfs.Base.IStream
import SimpleDfs.Paxos.Protocol

/-!
# The acceptor and its log

`acceptor` of `paxos.cc` with the durable log of `log.cc`. The log file is a text that each handler
appends its record to before it replies. `values` is a `std::map` that is only read and written
through `operator[]`, so it is a function with the empty string as its default.

Each handler runs under `pxs_mutex` and is one function. A handler that fails a `VERIFY` aborts the
process; it has no result. `commit_wo` releases the mutex for the upcall to `config`, which is a
separate step of the models that use it: `commitWo` is what happens before, and it makes an upcall
exactly when `commitUpcalls` says so.

The checks are those of the source: `preparereq` compares the request's instance with `instance_h`
from one side only, and `acceptreq` does not look at the instance.
-/

namespace SimpleDfs.Paxos

open IStream

/-- `acceptor`, with the text of its log file. -/
structure Acceptor where
  /-- The node's name. -/
  me : String
  /-- The number of the highest proposal seen in a prepare. -/
  n_h : PropT
  /-- The number of the highest proposal accepted. -/
  n_a : PropT
  /-- The value of the highest proposal accepted. -/
  v_a : String
  /-- The number of the highest instance decided. -/
  instance_h : ℕ
  /-- The value of each instance. -/
  values : ℕ → String
  /-- The contents of the file `paxos-<me>.log`. -/
  log : String

namespace Acceptor

/-! ## The log -/

/-- `log::loginstance`. -/
def loginstance (a : Acceptor) (inst : ℕ) (v : String) : Acceptor :=
  { a with log := a.log ++ "done" ++ " " ++ toString inst ++ " " ++ v ++ "\n" }

/-- `log::logprop`. -/
def logprop (a : Acceptor) (n_h : PropT) : Acceptor :=
  { a with log := a.log ++ "propseen" ++ " " ++ toString n_h.n.toNat ++ " " ++ n_h.m ++ "\n" }

/-- `log::logaccept`. -/
def logaccept (a : Acceptor) (n : PropT) (v : String) : Acceptor :=
  { a with
    log := a.log ++ "accepted" ++ " " ++ toString n.n.toNat ++ " " ++ n.m ++ " " ++ v ++ "\n" }

/-- The body of the loop of `log::logread`, after the record's type was read. An unknown type fails
the `VERIFY`. The variable `instance` lives as long as the loop. -/
def logreadRecord (type : String) (src : IStream) (inst : UInt32) (a : Acceptor) :
    Option (Acceptor × UInt32 × IStream) :=
  if type = "done" then
    let (inst, src) := readUnsigned src inst
    let src := get src
    let (v, src) := getline src ""
    -- Only the counters are reset: the names in `n_h` and `n_a` stay.
    some ({ a with
      values := Function.update a.values inst.toNat v
      instance_h := inst.toNat
      v_a := ""
      n_h := { a.n_h with n := 0 }
      n_a := { a.n_a with n := 0 } }, inst, src)
  else if type = "propseen" then
    let (n, src) := readUnsigned src a.n_h.n
    let (m, src) := readToken src a.n_h.m
    some ({ a with n_h := ⟨n, m⟩ }, inst, src)
  else if type = "accepted" then
    let (n, src) := readUnsigned src a.n_a.n
    let (m, src) := readToken src a.n_a.m
    let src := get src
    let (v, src) := getline src ""
    some ({ a with n_a := ⟨n, m⟩, v_a := v }, inst, src)
  else none

/-- The loop of `log::logread`. Each turn reads at least one character, so that the length of the
text is enough `fuel`. -/
def logreadLoop : ℕ → IStream → UInt32 → Acceptor → Option Acceptor
  | 0, _, _, a => some a
  | fuel + 1, src, inst, a =>
    let (type, src) := readToken src ""
    if src.good then
      (logreadRecord type src inst a).bind fun (a, inst, src) => logreadLoop fuel src inst a
    else some a

/-- `log::logread`: the log is replayed on top of the acceptor's state. The source does not say what
`instance` is before the first number was read. -/
def logread (a : Acceptor) : Option Acceptor :=
  logreadLoop (a.log.length + 1) (openText a.log) 0 a

/-- The lines of a text, each with a newline after it, as `log::dump` collects them. -/
def dumpLoop : ℕ → IStream → String → String
  | 0, _, res => res
  | fuel + 1, src, res =>
    let (v, src) := getline src ""
    if src.good then dumpLoop fuel src (res ++ v ++ "\n") else res

/-- `acceptor::dump`, which is `log::dump`. -/
def dump (a : Acceptor) : String := dumpLoop (a.log.length + 1) (openText a.log) ""

/-- `acceptor::restore`: the log is overwritten with `s` and replayed on top of the state. -/
def restore (a : Acceptor) (s : String) : Option Acceptor := ({ a with log := s }).logread

/-! ## The constructor and the handlers -/

/-- The state that the constructor starts from, with the log file that it finds. -/
def fresh (me log : String) : Acceptor := ⟨me, ⟨0, me⟩, ⟨0, me⟩, "", 0, fun _ => "", log⟩

/-- `acceptor::acceptor`, on the log file `log`. -/
def construct (first : Bool) (me value log : String) : Option Acceptor :=
  (fresh me log).logread.map fun a =>
    if a.instance_h = 0 ∧ first then
      { a.loginstance 1 value with
        values := Function.update a.values 1 value
        instance_h := 1 }
    else a

/-- `acceptor::preparereq`. -/
def preparereq (a : Acceptor) (arg : PrepareArg) : Acceptor × PrepareRes :=
  -- An old instance is answered with its value, whatever the number.
  if a.instance_h ≥ arg.inst then
    (a, { PrepareRes.empty with accept := false, oldinstance := true, v_a := a.values arg.inst })
  else if arg.n.gt a.n_h then
    ({ a with n_h := arg.n }.logprop arg.n,
      { accept := true, n_a := a.n_a, oldinstance := false, v_a := a.v_a })
  else (a, { PrepareRes.empty with accept := false, oldinstance := false })

/-- `acceptor::acceptreq`. -/
def acceptreq (a : Acceptor) (arg : AcceptArg) : Acceptor × Bool :=
  if arg.n.ge a.n_h then ({ a with n_a := arg.n, v_a := arg.v }.logaccept arg.n arg.v, true)
  else (a, false)

/-- Whether `commit_wo` makes an upcall to `config`. -/
def commitUpcalls (a : Acceptor) (inst : ℕ) : Bool := inst > a.instance_h

/-- `acceptor::commit_wo`, up to the upcall. -/
def commitWo (a : Acceptor) (inst : ℕ) (value : String) : Acceptor :=
  -- An instance that the node has, or has passed, is ignored.
  if inst > a.instance_h then
    { { a with values := Function.update a.values inst value }.loginstance inst value with
      instance_h := inst
      n_h := ⟨0, a.me⟩
      n_a := ⟨0, a.me⟩
      v_a := "" }
  else a

/-- `acceptor::commit`, up to the upcall. -/
def commit (a : Acceptor) (inst : ℕ) (value : String) : Acceptor := a.commitWo inst value

/-- `acceptor::decidereq`, up to the upcall. It aborts when the value is not the one accepted, or
when the instance is beyond the next one. -/
def decidereq (a : Acceptor) (arg : DecideArg) : Option Acceptor :=
  if arg.inst = a.instance_h + 1 then
    if a.v_a = arg.v then some (a.commitWo arg.inst a.v_a) else none
  else if arg.inst ≤ a.instance_h then some a
  else none

end Acceptor

/-- `preparereq` commits nothing. -/
theorem frame_preparereq (a : Acceptor) (arg : PrepareArg) :
    (a.preparereq arg).1.me = a.me ∧ (a.preparereq arg).1.instance_h = a.instance_h ∧
      (a.preparereq arg).1.values = a.values := by
  unfold Acceptor.preparereq
  split_ifs <;> exact ⟨rfl, rfl, rfl⟩

/-- `acceptreq` commits nothing. -/
theorem frame_acceptreq (a : Acceptor) (arg : AcceptArg) :
    (a.acceptreq arg).1.me = a.me ∧ (a.acceptreq arg).1.instance_h = a.instance_h ∧
      (a.acceptreq arg).1.values = a.values := by
  unfold Acceptor.acceptreq
  split_ifs <;> exact ⟨rfl, rfl, rfl⟩

/-- `commit_wo` does not lower `instance_h`. -/
theorem instance_h_le_commitWo (a : Acceptor) (inst : ℕ) (value : String) :
    a.instance_h ≤ (a.commitWo inst value).instance_h := by
  unfold Acceptor.commitWo
  split_ifs with h
  · exact le_of_lt h
  · exact le_rfl

/-- `commit_wo` does not change the name. -/
theorem me_commitWo (a : Acceptor) (inst : ℕ) (value : String) :
    (a.commitWo inst value).me = a.me := by
  unfold Acceptor.commitWo
  split_ifs <;> rfl

end SimpleDfs.Paxos
