import SimpleDfs.Base.Ballot
import SimpleDfs.Paxos.Cluster

/-!
# What the messages of a cluster say

The calls and replies made so far are the history of a run: `Promised`, `Accepted` and `Proposed`
read off them which node promised, accepted or proposed what in which instance, and `ChosenAt` and
`Backed` are the statements of `Ballot` about one instance in these terms. They only become more
with more messages (the lemmas named `mono`).

A `Setting` is what the nodes of a run have in common: the node list of every instance, what may be
proposed in it, and the instances that were decided before the run.
-/

namespace SimpleDfs.Paxos

/-- What the nodes of a run have in common. -/
structure Setting where
  /-- The nodes that the proposers of an instance ask. -/
  nodes : ℕ → List String
  /-- The values that may be proposed in an instance. -/
  proposal : ℕ → String → Prop
  /-- The highest instance that each node has when the run starts. -/
  base : String → ℕ
  /-- The values of the instances decided before the run. -/
  hist : ℕ → String
  /-- An empty value is never proposed. -/
  proposal_ne : ∀ i v, proposal i v → v ≠ ""
  /-- An instance decided before the run is known in every majority of its nodes. -/
  known : ∀ i d, i ≤ base d → ∀ T, majority (nodes i) T = true → ∃ d' ∈ T, i ≤ base d'

/-- Two majorities of one node list have a node in common. -/
theorem exists_of_majority {l T U : List String} (hT : majority l T = true)
    (hU : majority l U = true) : ∃ d ∈ T, d ∈ U := by
  obtain ⟨d, -, hdT, hdU⟩ := Ballot.exists_of_majorities l (isamember · T) (isamember · U)
    (by simpa [majority] using hT) (by simpa [majority] using hU)
  exact ⟨d, isamember_iff.mp hdT, isamember_iff.mp hdU⟩

/-- A majority is not empty. -/
theorem not_majority_nil (l : List String) : majority l [] = false := by
  simp [majority, isamember]

/-! ## Promises, proposals and acceptances -/

/-- Node `d` promised `b` in instance `i`, with the result `res`. -/
def Promised (rs : List Reply) (d : String) (i : ℕ) (b : PropT) (res : PrepareRes) : Prop :=
  res.accept = true ∧ ∃ c : Call, c.dst = d ∧ c.req = .prepare ⟨i, b⟩ ∧ ⟨c, .prepare res⟩ ∈ rs

/-- Node `d` accepted `v` at `b` in instance `i`. -/
def Accepted (rs : List Reply) (d : String) (i : ℕ) (b : PropT) (v : String) : Prop :=
  ∃ c : Call, c.dst = d ∧ c.req = .accept ⟨i, b, v⟩ ∧ ⟨c, .accept true⟩ ∈ rs

/-- The value `v` was proposed at `b` in instance `i`. -/
def Proposed (cs : List Call) (i : ℕ) (b : PropT) (v : String) : Prop :=
  ∃ c ∈ cs, c.req = .accept ⟨i, b, v⟩

/-- A majority of the nodes of instance `i` accepted `v` at `b`. -/
def ChosenAt (nodes : ℕ → List String) (rs : List Reply) (i : ℕ) (b : PropT) (v : String) : Prop :=
  ∃ T, majority (nodes i) T = true ∧ ∀ d ∈ T, Accepted rs d i b v

/-- A majority of the nodes of instance `i` promised `b`, and whatever one of them reported, one of
them reported `v` with a number that is at least as high. -/
def Backed (nodes : ℕ → List String) (rs : List Reply) (i : ℕ) (b : PropT) (v : String) : Prop :=
  ∃ T, majority (nodes i) T = true ∧ ∀ d ∈ T, ∃ res, Promised rs d i b res ∧
    (res.n_a.n ≠ 0 → ∃ d' ∈ T, ∃ res', Promised rs d' i b res' ∧ res.n_a ≤ res'.n_a ∧
      res'.v_a = v)

/-- The value `w` was decided in instance `i`, in the run or before it. -/
def Decided (P : Setting) (rs : List Reply) (i : ℕ) (w : String) : Prop :=
  (∃ b, ChosenAt P.nodes rs i b w) ∨ (∃ d, i ≤ P.base d) ∧ w = P.hist i

section Mono

variable {rs rs' : List Reply} (hrs : rs ⊆ rs') {d : String} {i : ℕ} {b : PropT} {v : String}
include hrs

/-- A promise stays. -/
theorem Promised.mono {res : PrepareRes} (h : Promised rs d i b res) : Promised rs' d i b res := by
  obtain ⟨hacc, c, hdst, hreq, hmem⟩ := h
  exact ⟨hacc, c, hdst, hreq, hrs hmem⟩

/-- An acceptance stays. -/
theorem Accepted.mono (h : Accepted rs d i b v) : Accepted rs' d i b v := by
  obtain ⟨c, hdst, hreq, hmem⟩ := h
  exact ⟨c, hdst, hreq, hrs hmem⟩

/-- A value that is chosen stays chosen. -/
theorem ChosenAt.mono {nodes : ℕ → List String} (h : ChosenAt nodes rs i b v) :
    ChosenAt nodes rs' i b v := by
  obtain ⟨T, hT, hacc⟩ := h
  exact ⟨T, hT, fun d hd => (hacc d hd).mono hrs⟩

/-- A proposal that is backed stays backed. -/
theorem Backed.mono {nodes : ℕ → List String} (h : Backed nodes rs i b v) :
    Backed nodes rs' i b v := by
  obtain ⟨T, hT, hprom⟩ := h
  refine ⟨T, hT, fun d hd => ?_⟩
  obtain ⟨res, hres, hhigh⟩ := hprom d hd
  refine ⟨res, hres.mono hrs, fun hne => ?_⟩
  obtain ⟨d', hd', res', hres', hle, hv⟩ := hhigh hne
  exact ⟨d', hd', res', hres'.mono hrs, hle, hv⟩

/-- A value that is decided stays decided. -/
theorem Decided.mono {P : Setting} {w : String} (h : Decided P rs i w) : Decided P rs' i w :=
  h.imp (fun ⟨b, hb⟩ => ⟨b, hb.mono hrs⟩) id

end Mono

/-- A proposal stays. -/
theorem Proposed.mono {cs cs' : List Call} (hcs : cs ⊆ cs') {i : ℕ} {b : PropT} {v : String}
    (h : Proposed cs i b v) : Proposed cs' i b v := by
  obtain ⟨c, hc, hreq⟩ := h
  exact ⟨c, hcs hc, hreq⟩

section Append

variable {rs : List Reply} {r : Reply} {d : String} {i : ℕ} {b : PropT}

/-- One more reply adds a promise only if it is one. -/
theorem promised_append {res : PrepareRes} (h : Promised (rs ++ [r]) d i b res) :
    Promised rs d i b res ∨
      (r.call.dst = d ∧ r.call.req = .prepare ⟨i, b⟩ ∧ r.res = .prepare res) := by
  obtain ⟨hacc, c, hdst, hreq, hmem⟩ := h
  rcases List.mem_append.mp hmem with hmem | hmem
  · exact Or.inl ⟨hacc, c, hdst, hreq, hmem⟩
  · obtain rfl := List.mem_singleton.mp hmem
    exact Or.inr ⟨hdst, hreq, rfl⟩

/-- One more reply adds an acceptance only if it is one. -/
theorem accepted_append {v : String} (h : Accepted (rs ++ [r]) d i b v) :
    Accepted rs d i b v ∨
      (r.call.dst = d ∧ r.call.req = .accept ⟨i, b, v⟩ ∧ r.res = .accept true) := by
  obtain ⟨c, hdst, hreq, hmem⟩ := h
  rcases List.mem_append.mp hmem with hmem | hmem
  · exact Or.inl ⟨c, hdst, hreq, hmem⟩
  · obtain rfl := List.mem_singleton.mp hmem
    exact Or.inr ⟨hdst, hreq, rfl⟩

end Append

/-! ## The messages of one instance as a history of ballots -/

/-- The report in a promise: the proposal accepted last, if there is one. -/
def PrepareRes.report (res : PrepareRes) : Option (PropT × String) :=
  if res.n_a.n = 0 then none else some (res.n_a, res.v_a)

/-- The messages about instance `i`. -/
def instanceHistory (cs : List Call) (rs : List Reply) (i : ℕ) :
    Ballot.History PropT String String where
  proposed b v := Proposed cs i b v
  accepted d b v := Accepted rs d i b v
  promised d b r := ∃ res, Promised rs d i b res ∧ r = res.report

/-- The majorities of the nodes of an instance. -/
def Majority (l : List String) (S : Set String) : Prop :=
  ∃ T, majority l T = true ∧ ∀ d ∈ T, d ∈ S

/-- A value is chosen in an instance when it is chosen in its history. -/
theorem chosen_of_chosenAt {nodes : ℕ → List String} (cs : List Call) {rs : List Reply} {i : ℕ}
    {b : PropT} {v : String} (h : ChosenAt nodes rs i b v) :
    (instanceHistory cs rs i).Chosen (Majority (nodes i)) b v := by
  obtain ⟨T, hT, hacc⟩ := h
  exact ⟨{d | d ∈ T}, ⟨T, hT, fun _ hd => hd⟩, hacc⟩

/-- The rules of voting in instance `i`: what the messages say when acceptors keep their promises
and proposers respect the reports. -/
structure VotingLaws (nodes : ℕ → List String) (cs : List Call) (rs : List Reply) (i : ℕ) :
    Prop where
  /-- A number is proposed with once. -/
  unique : ∀ b v w, Proposed cs i b v → Proposed cs i b w → v = w
  /-- What was accepted was proposed. -/
  accepted : ∀ d b v, Accepted rs d i b v → Proposed cs i b v
  /-- The counter of a proposal is not `0`. -/
  pos : ∀ b v, Proposed cs i b v → b.n ≠ 0
  /-- A proposal is backed. -/
  backed : ∀ b v, Proposed cs i b v → Backed nodes rs i b v
  /-- What a promise reports was proposed, with a lower number. -/
  reported : ∀ d b res, Promised rs d i b res → res.n_a.n ≠ 0 →
    Proposed cs i res.n_a res.v_a ∧ res.n_a < b
  /-- A promise reports every lower acceptance. -/
  report_le : ∀ d b res c w, Promised rs d i b res → Accepted rs d i c w → c < b → c ≤ res.n_a
  /-- A number is promised once. -/
  promise_unique : ∀ d b res res', Promised rs d i b res → Promised rs d i b res' → res = res'

/-- Messages that obey the rules are a lawful history of ballots. -/
theorem VotingLaws.lawful {nodes : ℕ → List String} {cs : List Call} {rs : List Reply} {i : ℕ}
    (h : VotingLaws nodes cs rs i) : (instanceHistory cs rs i).Lawful (Majority (nodes i)) where
  inter := by
    rintro S T ⟨S', hS, hsub⟩ ⟨T', hT, hsub'⟩
    obtain ⟨d, hd, hd'⟩ := exists_of_majority hS hT
    exact ⟨d, hsub d hd, hsub' d hd'⟩
  finite := by
    -- Every ballot used is in a call, and the calls are a list.
    refine Set.Finite.subset (cs.map fun c =>
      match c.req with
      | .accept arg => arg.n
      | _ => ⟨0, ""⟩).finite_toSet ?_
    rintro b ⟨v, c, hc, hreq⟩
    refine List.mem_map.mpr ⟨c, hc, ?_⟩
    simp only [hreq]
  unique := h.unique
  accepted_proposed := h.accepted
  report_proposed := by
    rintro d b c w ⟨res, hres, hrep⟩
    unfold PrepareRes.report at hrep
    split_ifs at hrep with hzero
    obtain ⟨rfl, rfl⟩ := Prod.mk.inj (Option.some.inj hrep)
    exact h.reported d b res hres hzero
  report_le := by
    rintro d b r c w ⟨res, hres, rfl⟩ hacc hlt
    -- The report is not below an acceptance, so that its counter is not `0`.
    have hle := h.report_le d b res c w hres hacc hlt
    have hpos : c.n ≠ 0 := h.pos c w (h.accepted d c w hacc)
    have hne : res.n_a.n ≠ 0 := fun hzero => hpos (PropT.n_eq_zero_of_le hle hzero)
    exact ⟨res.n_a, res.v_a, if_neg hne, hle⟩
  backed := by
    intro b v hp
    obtain ⟨T, hT, hprom⟩ := h.backed b v hp
    refine ⟨{d | d ∈ T}, ⟨T, hT, fun _ hd => hd⟩, fun d hd => ?_, ?_⟩
    · obtain ⟨res, hres, -⟩ := hprom d hd
      exact ⟨_, res, hres, rfl⟩
    · rintro d hd c w ⟨res, hres, hrep⟩
      unfold PrepareRes.report at hrep
      split_ifs at hrep with hzero
      obtain ⟨rfl, rfl⟩ := Prod.mk.inj (Option.some.inj hrep)
      -- The report is the one that `Backed` speaks of, since a number is promised once.
      obtain ⟨res₀, hres₀, hhigh⟩ := hprom d hd
      obtain rfl := h.promise_unique d b _ _ hres hres₀
      obtain ⟨d', hd', res', hres', hle, rfl⟩ := hhigh hzero
      have hne : res'.n_a.n ≠ 0 := fun hz => hzero (PropT.n_eq_zero_of_le hle hz)
      exact ⟨d', hd', res'.n_a, hle, res', hres', (if_neg hne).symm⟩

end SimpleDfs.Paxos
