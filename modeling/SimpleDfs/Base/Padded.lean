import Mathlib.Data.List.GetD
import Mathlib.Tactic.SplitIfs

/-!
# Arrays that are filled up

An array of a given length that reads as a fill element from its end on. Writing at a place behind
the end makes it longer, and the gap reads as the fill element. A list is such an array (`ofList`).
`resized` and `replaced` are what a program does to a list that it keeps in a string: taking away or
adding at the end, and replacing a part.
-/

/-- An array with elements of type `α`, filled up with `fill`. -/
@[ext]
structure Padded (α : Type*) (fill : α) where
  /-- The length. -/
  length : ℕ
  /-- The element at each place. -/
  get : ℕ → α
  /-- From the end on the array reads as the fill element. -/
  get_of_le : ∀ i, length ≤ i → get i = fill

namespace Padded

variable {α : Type*} {fill : α}

/-- The array of a list. -/
def ofList (l : List α) : Padded α fill where
  length := l.length
  get i := l.getD i fill
  get_of_le _ hi := List.getD_eq_default l fill hi

/-- The elements up to the end. -/
def toList (a : Padded α fill) : List α := (List.range a.length).map a.get

/-- There are as many elements as the array is long. -/
@[simp] theorem length_toList (a : Padded α fill) : a.toList.length = a.length := by
  rw [toList, List.length_map, List.length_range]

/-- The array of its elements. -/
@[simp] theorem ofList_toList (a : Padded α fill) : ofList a.toList = a := by
  refine Padded.ext a.length_toList (funext fun i => ?_)
  show a.toList.getD i fill = a.get i
  by_cases hi : i < a.length
  · rw [toList, List.getD_eq_getElem?_getD, List.getElem?_map, List.getElem?_range hi]
    rfl
  · rw [List.getD_eq_default _ _ (by rw [length_toList]; omega), a.get_of_le i (by omega)]

/-- The elements of the array of a list. -/
@[simp] theorem toList_ofList (l : List α) : (ofList l : Padded α fill).toList = l := by
  show (List.range l.length).map (fun i => l.getD i fill) = l
  refine List.ext_getElem (by rw [List.length_map, List.length_range]) fun i _ hi => ?_
  rw [List.getElem_map, List.getElem_range, List.getD_eq_getElem _ _ hi]

/-- A list is written at the place `off`. -/
def write (a : Padded α fill) (off : ℕ) (buf : List α) : Padded α fill where
  length := max a.length (off + buf.length)
  get i := if off ≤ i ∧ i < off + buf.length then buf.getD (i - off) fill else a.get i
  get_of_le i hi := by
    have hlength : a.length ≤ i := by omega
    rw [if_neg (by omega), a.get_of_le i hlength]

/-- The array is cut, or filled up, to the length `n`. -/
def setLength (a : Padded α fill) (n : ℕ) : Padded α fill where
  length := n
  get i := if i < n then a.get i else fill
  get_of_le i hi := if_neg (by omega)

/-- A write into an array that was filled up before. -/
theorem write_setLength (a : Padded α fill) {off : ℕ} {buf : List α}
    (h : a.length ≤ off + buf.length) :
    (a.setLength (off + buf.length)).write off buf = a.write off buf := by
  refine Padded.ext ?_ (funext fun i => ?_)
  · show max (off + buf.length) (off + buf.length) = max a.length (off + buf.length)
    omega
  · show (if off ≤ i ∧ i < off + buf.length then _ else if i < off + buf.length then a.get i
      else fill) = if off ≤ i ∧ i < off + buf.length then _ else a.get i
    split_ifs with hin hlt
    · rfl
    · rfl
    · exact (a.get_of_le i (by omega)).symm

/-- The list is cut, or filled up, to the length `n`. -/
def resized (fill : α) (n : ℕ) (l : List α) : List α :=
  l.take n ++ List.replicate (n - l.length) fill

/-- The length is as asked for. -/
theorem length_resized (n : ℕ) (l : List α) : (resized fill n l).length = n := by
  simp only [resized, List.length_append, List.length_take, List.length_replicate]
  omega

/-- A list of that length is not changed. -/
theorem resized_eq_self {n : ℕ} {l : List α} (h : l.length = n) : resized fill n l = l := by
  rw [resized, List.take_of_length_le (Nat.le_of_eq h), h, Nat.sub_self, List.replicate_zero,
    List.append_nil]

/-- The array of a list that was cut or filled up. -/
theorem ofList_resized (n : ℕ) (l : List α) :
    (ofList (resized fill n l) : Padded α fill) = (ofList l).setLength n := by
  refine Padded.ext (length_resized n l) (funext fun i => ?_)
  show (resized fill n l).getD i fill = if i < n then l.getD i fill else fill
  split_ifs with hi
  · by_cases hl : i < l.length
    · rw [resized, List.getD_append _ _ _ _ (by simp; omega), List.getD_eq_getElem?_getD,
        List.getElem?_take_of_lt hi, List.getD_eq_getElem?_getD]
    · have htake : l.take n = l := List.take_of_length_le (by omega)
      rw [resized, htake, List.getD_append_right _ _ _ _ (by omega),
        List.getD_eq_default l fill (by omega)]
      simp
  · exact List.getD_eq_default _ _ (by rw [length_resized]; omega)

/-- The `len` elements from the place `pos` on are replaced. -/
def replaced (l : List α) (pos len : ℕ) (buf : List α) : List α :=
  l.take pos ++ buf ++ l.drop (pos + len)

/-- The array of a list of which a part was replaced by as many elements. -/
theorem ofList_replaced {l buf : List α} {off : ℕ} (h : off + buf.length ≤ l.length) :
    (ofList (replaced l off buf.length buf) : Padded α fill) = (ofList l).write off buf := by
  have htake : (l.take off).length = off := by
    rw [List.length_take]
    omega
  refine Padded.ext ?_ (funext fun i => ?_)
  · show (replaced l off buf.length buf).length = max l.length (off + buf.length)
    simp only [replaced, List.length_append, htake, List.length_drop]
    omega
  · show (replaced l off buf.length buf).getD i fill =
      if off ≤ i ∧ i < off + buf.length then buf.getD (i - off) fill else l.getD i fill
    unfold replaced
    -- Before the part, in it and behind it.
    by_cases hbefore : i < off
    · rw [if_neg (by omega), List.append_assoc, List.getD_append _ _ _ _ (by omega),
        List.getD_eq_getElem?_getD, List.getElem?_take_of_lt hbefore, List.getD_eq_getElem?_getD]
    · by_cases hin : i < off + buf.length
      · rw [if_pos (by omega), List.getD_append _ _ _ _ (by rw [List.length_append]; omega),
          List.getD_append_right _ _ _ _ (by omega), htake]
      · rw [if_neg (by omega), List.getD_append_right _ _ _ _ (by rw [List.length_append]; omega),
          List.length_append, htake, List.getD_eq_getElem?_getD, List.getElem?_drop,
          List.getD_eq_getElem?_getD]
        congr 2
        omega

end Padded
