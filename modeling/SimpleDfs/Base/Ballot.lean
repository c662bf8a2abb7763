import Mathlib.Data.Set.Finite.Basic
import Mathlib.Order.WellFoundedSet
import Mathlib.Data.List.Count
import Mathlib.Tactic.Push

/-!
# Majorities and ballots

The argument of Paxos in its own terms, for any type of voters, any linear order of ballots, and any
type of values. A history records which values were proposed at which ballot, which proposals each
voter accepted, and what each voter reported when it promised a ballot. A lawful history is one in
which a proposal is backed by a quorum of promises and takes the value of their highest report. In a
lawful history a value that a quorum accepted at a ballot is the value of every proposal from that
ballot on (`Lawful.proposed_eq_of_chosen`), so that at most one value is ever chosen
(`Lawful.chosen_unique`).

Quorums are a family of sets, any two of which intersect. Majorities of a list, counted with
repetition, are such a family (`exists_of_majorities`).
-/

namespace Ballot

/-- Two majorities of a list, counted with repetition, have a member in common. -/
theorem exists_of_majorities {α : Type*} (l : List α) (p q : α → Bool)
    (hp : l.length / 2 + 1 ≤ l.countP p) (hq : l.length / 2 + 1 ≤ l.countP q) :
    ∃ a ∈ l, p a = true ∧ q a = true := by
  by_contra hno
  push Not at hno
  have hle : l.countP p ≤ l.countP fun a => !q a := by
    apply List.countP_mono_left
    intro a ha hpa
    simpa using hno a ha hpa
  have hsum : l.length = l.countP q + l.countP fun a => !q a := by
    simpa using l.length_eq_countP_add_countP q
  omega

/-- What a run of a voting protocol leaves behind: the proposals made, the proposals that each voter
accepted, and the promises of each voter, each with the highest proposal it reported, if any. -/
structure History (β V D : Type*) where
  /-- `proposed b v`: the value `v` was proposed at ballot `b`. -/
  proposed : β → V → Prop
  /-- `accepted d b v`: the voter `d` accepted `v` at ballot `b`. -/
  accepted : D → β → V → Prop
  /-- `promised d b r`: the voter `d` promised ballot `b` and reported `r`. -/
  promised : D → β → Option (β × V) → Prop

variable {β V D : Type*} [LinearOrder β] {H : History β V D} {Q : Set D → Prop}

/-- A value is chosen at a ballot when a quorum accepted it there. -/
def History.Chosen (H : History β V D) (Q : Set D → Prop) (b : β) (v : V) : Prop :=
  ∃ S, Q S ∧ ∀ d ∈ S, H.accepted d b v

/-- The laws of a history of Paxos with the quorums `Q`. -/
structure History.Lawful (H : History β V D) (Q : Set D → Prop) : Prop where
  /-- Any two quorums have a voter in common. -/
  inter : ∀ S T, Q S → Q T → (S ∩ T).Nonempty
  /-- Only finitely many ballots were used. -/
  finite : {b | ∃ v, H.proposed b v}.Finite
  /-- A ballot has one value. -/
  unique : ∀ b v w, H.proposed b v → H.proposed b w → v = w
  /-- A voter accepts only what was proposed. -/
  accepted_proposed : ∀ d b v, H.accepted d b v → H.proposed b v
  /-- A promise reports a proposal of a lower ballot. -/
  report_proposed : ∀ d b c w, H.promised d b (some (c, w)) → H.proposed c w ∧ c < b
  /-- A promise reports at least as high a ballot as any lower one that its voter ever accepts. -/
  report_le : ∀ d b r c w, H.promised d b r → H.accepted d c w → c < b →
    ∃ c' w', r = some (c', w') ∧ c ≤ c'
  /-- A proposal is backed by a quorum of promises, and has the value of a highest report among
  them when there is any report. -/
  backed : ∀ b v, H.proposed b v → ∃ S, Q S ∧ (∀ d ∈ S, ∃ r, H.promised d b r) ∧
    ∀ d ∈ S, ∀ c w, H.promised d b (some (c, w)) →
      ∃ d' ∈ S, ∃ c', c ≤ c' ∧ H.promised d' b (some (c', v))

/-- The value chosen at a ballot is the value of every proposal from that ballot on. -/
theorem History.Lawful.proposed_eq_of_chosen (hH : H.Lawful Q) {b : β} {v : V}
    (hc : H.Chosen Q b v) {b' : β} {v' : V} (hp : H.proposed b' v') (hle : b ≤ b') : v' = v := by
  obtain ⟨S, hS, hacc⟩ := hc
  -- The induction is over the ballots used, of which there are finitely many.
  have hwf : {b | ∃ v, H.proposed b v}.WellFoundedOn (· < ·) := hH.finite.wellFoundedOn
  suffices key : ∀ v', H.proposed b' v' → b ≤ b' → v' = v from key v' hp hle
  refine hwf.induction (P := fun b' => ∀ v', H.proposed b' v' → b ≤ b' → v' = v) ⟨v', hp⟩ ?_
  clear hp hle
  intro b' _ ih v' hp hle
  obtain ⟨T, hT, hprom, hmax⟩ := hH.backed b' v' hp
  obtain ⟨d, hdS, hdT⟩ := hH.inter S T hS hT
  rcases hle.eq_or_lt with rfl | hlt
  · exact hH.unique b v' v hp (hH.accepted_proposed d b v (hacc d hdS))
  -- The common voter accepted `v` at `b`, so that it reported a ballot from `b` on.
  obtain ⟨r, hr⟩ := hprom d hdT
  obtain ⟨c, w, rfl, hbc⟩ := hH.report_le d b' r b v hr (hacc d hdS) hlt
  obtain ⟨d', _, c', hcc', hr'⟩ := hmax d hdT c w hr
  obtain ⟨hp', hlt'⟩ := hH.report_proposed d' b' c' v' hr'
  exact ih c' ⟨v', hp'⟩ hlt' v' hp' (hbc.trans hcc')

/-- At most one value is chosen. -/
theorem History.Lawful.chosen_unique (hH : H.Lawful Q) {b b' : β} {v v' : V}
    (hc : H.Chosen Q b v) (hc' : H.Chosen Q b' v') : v = v' := by
  have hprop : ∀ {b v}, H.Chosen Q b v → H.proposed b v := by
    rintro b v ⟨S, hS, hacc⟩
    obtain ⟨d, hd, -⟩ := hH.inter S S hS hS
    exact hH.accepted_proposed d b v (hacc d hd)
  rcases le_total b b' with h | h
  · exact (hH.proposed_eq_of_chosen hc (hprop hc') h).symm
  · exact hH.proposed_eq_of_chosen hc' (hprop hc) h

end Ballot
