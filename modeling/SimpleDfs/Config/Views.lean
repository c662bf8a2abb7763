import SimpleDfs.Paxos.Cluster
import SimpleDfs.Paxos.Replay

/-!
# Views and the config module

`config` of `config.cc`. A view is written as its members, each followed by a blank, and read back
word by word (`members_value`). The module keeps the number and the members of the view that it
knows of; `paxosCommit` is the upcall of the acceptor, and `add` and `removeWo` give the arguments
with which they call the proposer, after they have given up the mutex. The view that follows is the
current one with one node appended, or with one node filtered out.
-/

namespace SimpleDfs

open Paxos IStream

/-! ## Views as texts -/

namespace Config

/-- The loop of `config::members`. -/
def membersLoop : ℕ → IStream → List String → List String
  | 0, _, view => view
  | fuel + 1, ist, view =>
    let (m, ist) := readToken ist ""
    if ist.good then membersLoop fuel ist (view ++ [m]) else view

/-- `config::members`. -/
def members (value : String) : List String := membersLoop (value.length + 1) (openText value) []

/-- `config::value`. -/
def value (m : List String) : String := m.foldl (fun ost x => ost ++ x ++ " ") ""

/-- The characters of a view: each member and a blank. -/
theorem toList_value (m : List String) :
    (value m).toList = m.flatMap fun x => x.toList ++ [' '] := by
  have key : ∀ ost : String, (m.foldl (fun ost x => ost ++ x ++ " ") ost).toList =
      ost.toList ++ m.flatMap fun x => x.toList ++ [' '] := by
    induction m with
    | nil => simp
    | cons x m ih =>
      intro ost
      rw [List.foldl_cons, ih]
      simp [String.toList_append]
  exact key ""

/-- The loop of `members` reads the words of a view. -/
theorem membersLoop_flatMap {m : List String} (hm : ∀ x ∈ m, IsWord x) {ws : List Char}
    (hws : ∀ c ∈ ws, isSpace c = true) {fuel : ℕ} (hfuel : m.length < fuel) (view : List String) :
    membersLoop fuel ⟨ws ++ m.flatMap (fun x => x.toList ++ [' ']), true⟩ view = view ++ m := by
  induction m generalizing ws fuel view with
  | nil =>
    obtain ⟨k, rfl⟩ := Nat.exists_eq_succ_of_ne_zero (by omega : fuel ≠ 0)
    have hskip : ws.dropWhile isSpace = [] := List.dropWhile_eq_nil_iff.mpr hws
    simp [membersLoop, readToken, hskip]
  | cons x m ih =>
    obtain ⟨k, rfl⟩ := Nat.exists_eq_succ_of_ne_zero (by omega : fuel ≠ 0)
    obtain ⟨hx, hm'⟩ := List.forall_mem_cons.mp hm
    have htext : ws ++ (x :: m).flatMap (fun x => x.toList ++ [' ']) =
        ws ++ x.toList ++ ' ' :: m.flatMap (fun x => x.toList ++ [' ']) := by simp
    rw [List.length_cons] at hfuel
    rw [htext, membersLoop, readToken_append hws hx.1 hx.2 (by decide)]
    simp only [if_true]
    -- The blank after the word is what the next turn skips.
    rw [show ' ' :: m.flatMap (fun x => x.toList ++ [' ']) =
        [' '] ++ m.flatMap (fun x => x.toList ++ [' ']) from rfl,
      ih hm' blank_isSpace (by omega), List.append_assoc, List.singleton_append]

/-- A view is read back from its text. -/
theorem members_value {m : List String} (hm : ∀ x ∈ m, IsWord x) : members (value m) = m := by
  have hlen : m.length < (value m).length + 1 := by
    rw [← String.length_toList, toList_value]
    clear hm
    induction m with
    | nil => simp
    | cons x m ih =>
      simp only [List.flatMap_cons, List.length_append, List.length_cons, List.length_nil] at ih ⊢
      omega
  have hloop := membersLoop_flatMap hm (List.forall_mem_nil (isSpace · = true)) hlen []
  rw [List.nil_append, List.nil_append, ← toList_value] at hloop
  exact hloop

/-- The members of a view are words, whatever its text is. -/
theorem isWord_of_mem_members {v m : String} (h : m ∈ members v) : IsWord m := by
  have key : ∀ (fuel : ℕ) (ist : IStream) (view : List String), (∀ x ∈ view, IsWord x) →
      ∀ x ∈ membersLoop fuel ist view, IsWord x := by
    intro fuel
    induction fuel with
    | zero => exact fun _ _ hview => hview
    | succ fuel ih =>
      intro ist view hview
      unfold membersLoop
      dsimp only
      split_ifs with hgood
      · refine ih _ _ (List.forall_mem_append.mpr ⟨hview, List.forall_mem_singleton.mpr ?_⟩)
        exact noSpace_of_readToken hgood
      · exact hview
  exact key _ _ [] (by simp) m h

example : members (value ["1", "2", "3"]) = ["1", "2", "3"] := by decide

end Config

/-- The view `new` follows the view `old`: it is not empty, it has no duplicates, and it is `old`
with one node appended or one node removed. -/
structure NextView (old new : List String) : Prop where
  /-- The view is not empty. -/
  ne : new ≠ []
  /-- The view has no duplicates. -/
  nodup : new.Nodup
  /-- One node was appended or removed. -/
  one : (∃ m ∉ old, new = old ++ [m]) ∨ ∃ m ∈ old, new = old.erase m

/-! ## The config module -/

/-- `config`: the name of the node, and the view that it knows of. -/
structure Config where
  /-- The node's name. -/
  me : String
  /-- The number of the view. -/
  myvid : ℕ
  /-- The members of the view. -/
  mems : List String
  deriving DecidableEq, Repr

namespace Config

/-- `config::get_view_wo`. -/
def getViewWo (acc : Acceptor) (inst : ℕ) : List String := members (acc.values inst)

/-- `config::reconstruct`. -/
def reconstruct (c : Config) (acc : Acceptor) : Config :=
  if acc.instance_h > 0 then
    { c with myvid := acc.instance_h, mems := getViewWo acc acc.instance_h }
  else c

/-- `config::config`, on the acceptor that it has made. -/
def construct (me : String) (acc : Acceptor) : Config := Config.reconstruct ⟨me, 0, []⟩ acc

/-- `config::paxos_commit`, up to the upcall to the view change. -/
def paxosCommit (c : Config) (inst : ℕ) (v : String) : Config :=
  { c with mems := members v, myvid := inst }

/-- `config::ismember`. -/
def ismember (acc : Acceptor) (m : String) (vid : ℕ) : Bool := isamember m (getViewWo acc vid)

/-- `config::add`, up to the call of the proposer. -/
def add (c : Config) (new_m : String) (vid : ℕ) : Option RunArgs :=
  if vid ≠ c.myvid then none
  else some ⟨c.myvid + 1, c.mems, value (c.mems ++ [new_m])⟩

/-- `config::remove_wo`, up to the call of the proposer. -/
def removeWo (c : Config) (m : String) : RunArgs :=
  ⟨c.myvid + 1, c.mems, value (c.mems.filter fun x => x ≠ m)⟩

/-- The smallest name among the node's own and the members of its view, as `config::heartbeater`
finds it. -/
def smallest (me : String) (cmems : List String) : String :=
  cmems.foldl (fun m x => if m > x then x else m) me

/-- The nodes that `config::heartbeater` may find dead, and removes then: the node with the smallest
name asks all others, and the others ask this one. -/
def heartbeatVictims (c : Config) (acc : Acceptor) : List String :=
  let cmems := getViewWo acc c.myvid
  if isamember c.me cmems then
    if smallest c.me cmems = c.me then cmems.filter fun x => x ≠ c.me
    else [smallest c.me cmems]
  else []

end Config

end SimpleDfs
