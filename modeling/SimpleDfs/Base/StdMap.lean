import Mathlib.Data.List.Lex
import Mathlib.Data.Prod.Lex
import Mathlib.Order.Lattice

/-!
# Ordered maps

A map as C++ keeps it: its entries in the order of their keys, each key once. The order of the
entries is part of the structure, so that two maps with the same entries are equal, and iterating
over a map is going through its list. `insert` is the assignment `d[a] = b`. A map is what comes out
when its entries are assigned one after the other to an empty map (`foldl_insert_entries`).

Maps whose values are ordered are ordered themselves, lexicographically by their entries.
-/

/-- A map with the keys in ascending order. -/
@[ext]
structure StdMap (K V : Type) [LinearOrder K] where
  /-- The entries. -/
  entries : List (K × V)
  /-- The keys ascend. -/
  sorted : entries.Pairwise fun a b => a.1 < b.1

namespace StdMap

variable {K V : Type} [LinearOrder K] {es : List (K × V)} {a : K}

instance [DecidableEq V] : DecidableEq (StdMap K V) := fun a b =>
  decidable_of_iff (a.entries = b.entries) StdMap.ext_iff.symm

/-- The map without entries. -/
def empty : StdMap K V := ⟨[], List.Pairwise.nil⟩

/-- The entries after an assignment. -/
def insertEntry (a : K) (b : V) : List (K × V) → List (K × V)
  | [] => [(a, b)]
  | e :: es =>
    if a < e.1 then (a, b) :: e :: es
    else if a = e.1 then (a, b) :: es
    else e :: insertEntry a b es

/-- The keys after an assignment. -/
theorem mem_insertEntry {b : V} {e : K × V} (h : e ∈ insertEntry a b es) : e = (a, b) ∨ e ∈ es := by
  induction es with
  | nil => exact Or.inl (List.mem_singleton.mp h)
  | cons e' es ih =>
    unfold insertEntry at h
    split_ifs at h
    · exact List.mem_cons.mp h
    · exact (List.mem_cons.mp h).imp id (List.mem_cons_of_mem _)
    · rcases List.mem_cons.mp h with rfl | h
      · exact Or.inr List.mem_cons_self
      · exact (ih h).imp id (List.mem_cons_of_mem _)

/-- An assignment keeps the keys in order. -/
theorem sorted_insertEntry (a : K) (b : V) (h : es.Pairwise fun a b => a.1 < b.1) :
    (insertEntry a b es).Pairwise fun a b => a.1 < b.1 := by
  induction es with
  | nil => exact List.pairwise_singleton _ _
  | cons e es ih =>
    obtain ⟨hhead, htail⟩ := List.pairwise_cons.mp h
    unfold insertEntry
    split_ifs with hlt heq
    · refine List.pairwise_cons.mpr ⟨fun e' he' => ?_, h⟩
      rcases List.mem_cons.mp he' with rfl | he'
      · exact hlt
      · exact hlt.trans (hhead e' he')
    · exact List.pairwise_cons.mpr ⟨fun e' he' => heq ▸ hhead e' he', htail⟩
    · refine List.pairwise_cons.mpr ⟨fun e' he' => ?_, ih htail⟩
      rcases mem_insertEntry he' with rfl | he'
      · exact lt_of_le_of_ne (not_lt.mp hlt) (Ne.symm heq)
      · exact hhead e' he'

/-- The assignment `d[a] = b`. -/
def insert (d : StdMap K V) (a : K) (b : V) : StdMap K V :=
  ⟨insertEntry a b d.entries, sorted_insertEntry a b d.sorted⟩

/-- What `a` is assigned to, in a list of entries. -/
def findEntry (a : K) : List (K × V) → Option V
  | [] => none
  | e :: es => if a = e.1 then some e.2 else findEntry a es

/-- What `a` is assigned to. -/
def find (d : StdMap K V) (a : K) : Option V := findEntry a d.entries

/-- A key below all others is not assigned. -/
theorem findEntry_eq_none (h : ∀ e ∈ es, a < e.1) :
    findEntry a es = none := by
  induction es with
  | nil => rfl
  | cons e es ih =>
    rw [findEntry, if_neg (h e List.mem_cons_self).ne]
    exact ih fun e' he' => h e' (List.mem_cons_of_mem _ he')

/-- The number of values with a property after an assignment: the old value of the key leaves and
the new one enters. -/
theorem countP_insert (p : V → Bool) (d : StdMap K V) (a : K) (b : V) :
    (d.insert a b).entries.countP (fun e => p e.2) + (if (d.find a).any p then 1 else 0) =
      d.entries.countP (fun e => p e.2) + if p b then 1 else 0 := by
  obtain ⟨es, hsorted⟩ := d
  show (insertEntry a b es).countP _ + (if (findEntry a es).any p then 1 else 0) = _
  induction es with
  | nil => simp [insertEntry, findEntry, List.countP_cons]
  | cons e es ih =>
    obtain ⟨hhead, htail⟩ := List.pairwise_cons.mp hsorted
    rw [insertEntry, findEntry]
    rcases lt_trichotomy a e.1 with hlt | heq | hgt
    · -- The key is new, and comes first.
      have hnone := findEntry_eq_none fun e' he' => hlt.trans (hhead e' he')
      rw [if_pos hlt, if_neg hlt.ne, hnone, List.countP_cons]
      simp
    · rw [if_neg (heq ▸ lt_irrefl a), if_pos heq, if_pos heq, List.countP_cons, List.countP_cons,
        Option.any_some]
      dsimp only
      omega
    · have hrest := ih htail
      rw [if_neg hgt.not_gt, if_neg hgt.ne', if_neg hgt.ne', List.countP_cons, List.countP_cons]
      dsimp only at hrest
      omega

/-- A key above all others comes last. -/
theorem insertEntry_last (b : V) (h : ∀ e ∈ es, e.1 < a) :
    insertEntry a b es = es ++ [(a, b)] := by
  induction es with
  | nil => rfl
  | cons e es ih =>
    have he : e.1 < a := h e List.mem_cons_self
    rw [insertEntry, if_neg (not_lt.mpr he.le), if_neg he.ne',
      ih fun e' he' => h e' (List.mem_cons_of_mem _ he'), List.cons_append]

/-- Assigning ascending entries to a map with lower keys appends them. -/
theorem entries_foldl_insert {d : StdMap K V}
    (h : (d.entries ++ es).Pairwise fun a b => a.1 < b.1) :
    (es.foldl (fun d e => d.insert e.1 e.2) d).entries = d.entries ++ es := by
  induction es generalizing d with
  | nil => exact (List.append_nil _).symm
  | cons e es ih =>
    have hlt : ∀ e' ∈ d.entries, e'.1 < e.1 := fun e' he' =>
      (List.pairwise_append.mp h).2.2 e' he' e List.mem_cons_self
    have hins : (d.insert e.1 e.2).entries = d.entries ++ [e] := insertEntry_last e.2 hlt
    have hassoc : d.entries ++ e :: es = (d.entries ++ [e]) ++ es := by
      rw [List.append_assoc, List.singleton_append]
    rw [List.foldl_cons, ih (by rw [hins, ← hassoc]; exact h), hins, ← hassoc]

/-- A map is what comes out when its entries are assigned one after the other. -/
theorem foldl_insert_entries (d : StdMap K V) :
    d.entries.foldl (fun d e => d.insert e.1 e.2) empty = d :=
  StdMap.ext (entries_foldl_insert d.sorted)

/-- The entries as pairs in lexicographic order. -/
def key (d : StdMap K V) : List (K ×ₗ V) := d.entries.map toLex

/-- The entries determine the map. -/
theorem key_injective : Function.Injective (key : StdMap K V → List (K ×ₗ V)) := by
  intro a b h
  exact StdMap.ext (List.map_injective_iff.mpr toLex.injective h)

instance [LinearOrder V] : LinearOrder (StdMap K V) := LinearOrder.lift' key key_injective

end StdMap
