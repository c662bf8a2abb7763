import Mathlib.Data.List.Perm.Basic
import Mathlib.Logic.Function.Basic

/-!
# Things that one process has at a time

In a distributed system the right to use something is often in transit: it is at a process, in a
reply that grants it, or in a message that gives it back. Each of these places has a token. A token
is for a key, the thing that is used, and of an owner. `Exclusive` says that there is one token for
each key that has an owner, which is of that owner, and none for the other keys. It holds whatever
the order of the tokens, so that a token may be passed on, and is kept when a key gets an owner with
a new token and when a token is given up.
-/

namespace Tokens

variable {τ κ β : Type*} [DecidableEq κ] {key : τ → κ} {val : τ → β} {toks toks' : List τ}
  {owner : κ → Option β} {t t' : τ}

/-- The owners of the tokens for a key. -/
def owners (key : τ → κ) (val : τ → β) (toks : List τ) (k : κ) : List β :=
  (toks.filter fun t => key t = k).map val

/-- The tokens are those of the owners. -/
def Exclusive (key : τ → κ) (val : τ → β) (toks : List τ) (owner : κ → Option β) : Prop :=
  ∀ k, (owners key val toks k).Perm (owner k).toList

/-- The owners with one token more. -/
theorem owners_cons (k : κ) : owners key val (t :: toks) k =
    if key t = k then val t :: owners key val toks k else owners key val toks k := by
  unfold owners
  by_cases hk : key t = k
  · rw [if_pos hk, List.filter_cons_of_pos (by simpa using hk), List.map_cons]
  · rw [if_neg hk, List.filter_cons_of_neg (by simpa using hk)]

/-- A token is for an owner. -/
theorem mem_owners (h : t ∈ toks) : val t ∈ owners key val toks (key t) :=
  List.mem_map_of_mem (List.mem_filter.mpr ⟨h, decide_eq_true rfl⟩)

namespace Exclusive

/-- There are no owners at first. -/
theorem nil : Exclusive key val [] fun _ => none := fun _ => List.Perm.nil

/-- A token is passed on. -/
theorem perm (h : Exclusive key val toks owner) (hperm : toks.Perm toks') :
    Exclusive key val toks' owner :=
  fun k => ((hperm.filter _).map val).symm.trans (h k)

/-- The owner of a key has the only token for it. -/
theorem cons_self (h : Exclusive key val (t :: toks) owner) :
    owner (key t) = some (val t) ∧ owners key val toks (key t) = [] := by
  have hperm := h (key t)
  rw [owners_cons, if_pos rfl] at hperm
  cases howner : owner (key t) with
  | none =>
    rw [howner] at hperm
    exact absurd hperm.length_eq (Nat.succ_ne_zero _)
  | some b =>
    rw [howner] at hperm
    have hsingle := List.perm_singleton.mp hperm
    rw [List.cons.injEq] at hsingle
    exact ⟨congrArg some hsingle.1.symm, hsingle.2⟩

/-- A key with an owner has a token. -/
theorem exists_token {k : κ} (h : Exclusive key val toks owner) (hk : owner k ≠ none) :
    ∃ t ∈ toks, key t = k := by
  by_contra hnone
  have hempty : owners key val toks k = [] := by
    unfold owners
    rw [List.filter_eq_nil_iff.mpr fun t ht hkey => hnone ⟨t, ht, of_decide_eq_true hkey⟩]
    rfl
  have hperm := h k
  rw [hempty] at hperm
  exact hk (Option.toList_eq_nil_iff.mp hperm.nil_eq.symm)

/-- The other tokens are for other keys. -/
theorem key_ne (h : Exclusive key val (t :: toks) owner) (ht : t' ∈ toks) : key t' ≠ key t := by
  intro hkey
  have hmem : val t' ∈ owners key val toks (key t') := mem_owners ht
  rw [hkey, h.cons_self.2] at hmem
  cases hmem

/-- A key gets an owner, with a token. -/
theorem take (h : Exclusive key val toks owner) (hfree : owner (key t) = none) :
    Exclusive key val (t :: toks) (Function.update owner (key t) (some (val t))) := by
  intro k
  rw [owners_cons, Function.update_apply]
  by_cases hk : k = key t
  · subst hk
    have hperm := h (key t)
    rw [hfree] at hperm
    rw [if_pos rfl, if_pos rfl, hperm.eq_nil]
    rfl
  · rw [if_neg (Ne.symm hk), if_neg hk]
    exact h k

/-- A token is given up, and its key has no owner any more. -/
theorem give (h : Exclusive key val (t :: toks) owner) :
    Exclusive key val toks (Function.update owner (key t) none) := by
  intro k
  rw [Function.update_apply]
  by_cases hk : k = key t
  · subst hk
    rw [if_pos rfl, h.cons_self.2]
    rfl
  · have hperm := h k
    rw [owners_cons, if_neg (Ne.symm hk)] at hperm
    rw [if_neg hk]
    exact hperm

end Exclusive

end Tokens
