import Mathlib.Data.Prod.Lex
import Mathlib.Data.String.Basic

/-!
# Proposal numbers and messages

`prop_t` and the arguments and results of the three Paxos requests, from `paxos_protocol.h`, and the
order of proposal numbers and the membership tests of `paxos.cc`. A proposal number keeps its 32-bit
counter, since a counter that wraps to `0` reads as "nothing accepted". Instance numbers are
counters on which nothing else depends, and are natural numbers.

The order is the lexicographic one (`PropT.gt_iff`), so that `PropT` is a linear order.
-/

namespace SimpleDfs.Paxos

/-- `prop_t`: a proposal number, made of a counter and the name of its proposer. -/
@[ext]
structure PropT where
  /-- The counter. -/
  n : UInt32
  /-- The proposer's name. -/
  m : String
  deriving DecidableEq, Repr

/-- `operator>` on proposal numbers. -/
def PropT.gt (a b : PropT) : Bool := a.n > b.n || (a.n == b.n && a.m > b.m)

/-- `operator>=` on proposal numbers. -/
def PropT.ge (a b : PropT) : Bool := a.n > b.n || (a.n == b.n && a.m ≥ b.m)

/-- A proposal number as a pair in lexicographic order. -/
def PropT.key (a : PropT) : ℕ ×ₗ String := toLex (a.n.toNat, a.m)

/-- The pair determines the proposal number. -/
theorem PropT.key_injective : Function.Injective PropT.key := by
  intro a b h
  have h' : (a.n.toNat, a.m) = (b.n.toNat, b.m) := toLex.injective h
  rw [Prod.mk.injEq] at h'
  exact PropT.ext (UInt32.toNat_inj.mp h'.1) h'.2

instance : LinearOrder PropT := LinearOrder.lift' PropT.key PropT.key_injective

/-- The order on proposal numbers, by cases. -/
theorem PropT.lt_iff {a b : PropT} :
    a < b ↔ a.n.toNat < b.n.toNat ∨ a.n.toNat = b.n.toNat ∧ a.m < b.m := Prod.Lex.lt_iff

/-- `operator>` is the order. -/
theorem PropT.gt_iff {a b : PropT} : a.gt b = true ↔ b < a := by
  rw [PropT.lt_iff]
  simp only [PropT.gt, Bool.or_eq_true, decide_eq_true_eq, Bool.and_eq_true, beq_iff_eq,
    gt_iff_lt, UInt32.lt_iff_toNat_lt, ← UInt32.toNat_inj]
  tauto

/-- `operator>=` is the order. -/
theorem PropT.ge_iff {a b : PropT} : a.ge b = true ↔ b ≤ a := by
  rw [← not_lt, PropT.lt_iff]
  simp only [PropT.ge, Bool.or_eq_true, decide_eq_true_eq, Bool.and_eq_true, beq_iff_eq,
    gt_iff_lt, ge_iff_le, UInt32.lt_iff_toNat_lt, ← UInt32.toNat_inj]
  constructor
  · rintro (h | ⟨h, hm⟩) (h' | ⟨h', hm'⟩)
    · omega
    · omega
    · omega
    · exact absurd hm' (not_lt.mpr hm)
  · intro h
    push Not at h
    rcases lt_or_eq_of_le h.1 with hlt | heq
    · exact Or.inl hlt
    · exact Or.inr ⟨heq.symm, h.2 heq.symm⟩

/-- The counters of numbers in order are in order. -/
theorem PropT.n_le_of_le {a b : PropT} (h : a ≤ b) : a.n.toNat ≤ b.n.toNat := by
  rcases h.lt_or_eq with h | rfl
  · rcases PropT.lt_iff.mp h with h | ⟨h, -⟩ <;> omega
  · exact le_rfl

/-- Below a number with the counter `0` all counters are `0`. -/
theorem PropT.n_eq_zero_of_le {a b : PropT} (h : a ≤ b) (hb : b.n = 0) : a.n = 0 := by
  have := PropT.n_le_of_le h
  rw [hb] at this
  exact UInt32.le_zero_iff.mp this

/-- `preparearg`. -/
structure PrepareArg where
  /-- The instance. -/
  inst : ℕ
  /-- The proposal number. -/
  n : PropT
  deriving DecidableEq, Repr

/-- `prepareres`. -/
structure PrepareRes where
  /-- Whether the instance was decided. -/
  oldinstance : Bool
  /-- Whether the number is promised. -/
  accept : Bool
  /-- The number of the proposal accepted last. -/
  n_a : PropT
  /-- The value accepted last, or the value decided. -/
  v_a : String
  deriving DecidableEq, Repr

/-- The result that the server stub passes to the handler. -/
def PrepareRes.empty : PrepareRes := ⟨false, false, ⟨0, ""⟩, ""⟩

/-- `acceptarg`. -/
structure AcceptArg where
  /-- The instance. -/
  inst : ℕ
  /-- The proposal number. -/
  n : PropT
  /-- The value proposed. -/
  v : String
  deriving DecidableEq, Repr

/-- `decidearg`. -/
structure DecideArg where
  /-- The instance. -/
  inst : ℕ
  /-- The value decided. -/
  v : String
  deriving DecidableEq, Repr

/-- `isamember`. -/
def isamember (m : String) (nodes : List String) : Bool := nodes.any fun x => x == m

/-- `isamember` is membership. -/
@[simp] theorem isamember_iff {m : String} {nodes : List String} :
    isamember m nodes = true ↔ m ∈ nodes := by
  simp [isamember]

/-- `proposer::majority`: whether `l2` contains a majority of `l1`. -/
def majority (l1 l2 : List String) : Bool :=
  l1.countP (fun x => isamember x l2) ≥ l1.length / 2 + 1

end SimpleDfs.Paxos
