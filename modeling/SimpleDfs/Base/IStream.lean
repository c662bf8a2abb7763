import Mathlib.Data.List.TakeWhile
import Mathlib.Tactic.SplitIfs

/-!
# Formatted input from a text

The part of the C++ input streams that reads whitespace-separated words, decimal numbers, single
characters, and lines. A stream is the text that is left and whether the last extraction worked;
once an extraction has failed, all later ones leave their variable as it is. An extraction that
starts at the end of the text fails in the same way, and a line that starts there is empty.

`readToken_append`, `readUnsigned_append`, and `getline_append` say that a word, a number, and a
line are read back from a text that was written with them.
-/

/-- An input stream: the text that is left, and whether it is still good. -/
structure IStream where
  /-- The characters that were not read yet. -/
  rest : List Char
  /-- Whether no extraction has failed. -/
  good : Bool
  deriving DecidableEq, Repr

namespace IStream

/-- The whitespace that separates words. -/
def isSpace (c : Char) : Bool :=
  c == ' ' || c == '\t' || c == '\n' || c == '\x0b' || c == '\x0c' || c == '\x0d'

/-- A text without whitespace in it. -/
def NoSpace (s : String) : Prop := ∀ c ∈ s.toList, isSpace c = false

/-- A text of one line. -/
def OneLine (s : String) : Prop := '\n' ∉ s.toList

instance (s : String) : Decidable (NoSpace s) :=
  List.decidableBAll (fun c => isSpace c = false) s.toList

instance (s : String) : Decidable (OneLine s) := inferInstanceAs (Decidable ('\n' ∉ s.toList))

/-- A stream on a text. -/
def openText (text : String) : IStream := ⟨text.toList, true⟩

/-- `>>` into a string that holds `old`. -/
def readToken (s : IStream) (old : String) : String × IStream :=
  if s.good then
    match s.rest.dropWhile isSpace with
    | [] => (old, ⟨[], false⟩)
    | c :: cs => (String.ofList ((c :: cs).takeWhile fun c => !isSpace c),
        ⟨(c :: cs).dropWhile fun c => !isSpace c, true⟩)
  else (old, s)

/-- The number at the start of a text, for an unsigned type of `size` numbers, and the stream after
it. A sign is accepted, and a minus negates the number in the type. Without a digit the number is
`0`, and one that does not fit is the largest of the type; both fail. -/
def number (size : ℕ) (text : List Char) : ℕ × IStream :=
  let sign := text.head?
  let unsigned := if sign = some '+' ∨ sign = some '-' then text.drop 1 else text
  let digits := unsigned.takeWhile Char.isDigit
  let rest := unsigned.dropWhile Char.isDigit
  if digits = [] then (0, ⟨rest, false⟩)
  else
    let n := Nat.ofDigitChars 10 digits 0
    if n < size then (if sign = some '-' then (size - n) % size else n, ⟨rest, true⟩)
    else (size - 1, ⟨rest, false⟩)

/-- `>>` into an unsigned 32-bit number that holds `old`. The variable is set also when there is no
number to read, but not at the end of the text. -/
def readUnsigned (s : IStream) (old : UInt32) : UInt32 × IStream :=
  if s.good then
    match s.rest.dropWhile isSpace with
    | [] => (old, ⟨[], false⟩)
    | c :: cs => (number UInt32.size (c :: cs)).map UInt32.ofNat id
  else (old, s)

/-- `get()`, with the character dropped. -/
def get (s : IStream) : IStream :=
  if s.good then
    match s.rest with
    | [] => ⟨[], false⟩
    | _ :: cs => ⟨cs, true⟩
  else s

/-- `getline` into a string that holds `old`. -/
def getline (s : IStream) (old : String) : String × IStream :=
  if s.good then
    match s.rest with
    | [] => ("", ⟨[], false⟩)
    | c :: cs => (String.ofList ((c :: cs).takeWhile fun c => c ≠ '\n'),
        ⟨((c :: cs).dropWhile fun c => c ≠ '\n').drop 1, true⟩)
  else (old, s)

/-! ## Reading back what was written -/

/-- A digit is not whitespace. -/
theorem isSpace_of_isDigit {c : Char} (h : c.isDigit = true) : isSpace c = false := by
  by_contra hs
  rw [Bool.not_eq_false] at hs
  simp only [isSpace, Bool.or_eq_true, beq_iff_eq] at hs
  rcases hs with ((((rfl | rfl) | rfl) | rfl) | rfl) | rfl <;> revert h <;> decide

/-- Leading whitespace is skipped up to a character that is none. -/
theorem dropWhile_isSpace_append {ws : List Char} (hws : ∀ c ∈ ws, isSpace c = true) {c : Char}
    (hc : isSpace c = false) (cs : List Char) : (ws ++ c :: cs).dropWhile isSpace = c :: cs := by
  rw [List.dropWhile_append_of_pos hws]
  simp [hc]

/-- A word is read back from a text in which whitespace stands before it, and after it. -/
theorem readToken_append {ws : List Char} (hws : ∀ c ∈ ws, isSpace c = true) {w : String}
    (hne : w ≠ "") (hw : NoSpace w) {c : Char} (hc : isSpace c = true) (rest : List Char)
    (old : String) :
    readToken ⟨ws ++ w.toList ++ c :: rest, true⟩ old = (w, ⟨c :: rest, true⟩) := by
  have hl : ∀ x ∈ w.toList, (!isSpace x) = true := fun x hx => by simp [hw x hx]
  obtain ⟨d, ds, hd⟩ : ∃ d ds, w.toList = d :: ds :=
    List.exists_cons_of_ne_nil fun h => hne (String.toList_inj.mp (by simpa using h))
  -- The whitespace before the word is skipped, and the word ends at the whitespace after it.
  have hskip : (ws ++ w.toList ++ c :: rest).dropWhile isSpace = d :: (ds ++ c :: rest) := by
    rw [List.append_assoc, hd, List.cons_append]
    exact dropWhile_isSpace_append hws (hw d (by simp [hd])) _
  have htext : d :: (ds ++ c :: rest) = w.toList ++ c :: rest := by rw [hd, List.cons_append]
  unfold readToken
  rw [if_pos rfl]
  simp only [hskip]
  rw [htext, List.takeWhile_append_of_pos hl, List.dropWhile_append_of_pos hl]
  simp [hc]

/-- A word that is read is not empty, and has no whitespace in it. -/
theorem noSpace_of_readToken {s : IStream} {old : String} (h : (readToken s old).2.good = true) :
    (readToken s old).1 ≠ "" ∧ NoSpace (readToken s old).1 := by
  unfold readToken at h ⊢
  split_ifs at h ⊢ with hgood
  · cases hrest : s.rest.dropWhile isSpace with
    | nil => simp [hrest] at h
    | cons c cs =>
      -- The word starts at the first character that is not whitespace.
      have hc : isSpace c = false := by
        have := List.head_dropWhile_not isSpace (l := s.rest) (by rw [hrest]; simp)
        simpa [hrest] using this
      refine ⟨fun hempty => ?_, fun x hx => ?_⟩
      · have := congrArg String.toList hempty
        simp [hc] at this
      · rw [String.toList_ofList] at hx
        simpa using List.mem_takeWhile_imp hx
  · exact absurd h hgood

/-- A number of the type is read back from its decimal digits, up to a character that is none. -/
theorem number_append {size n : ℕ} (hn : n < size) {rest : List Char}
    (hrest : ∀ c ∈ rest.head?, c.isDigit = false) :
    number size (Nat.toDigits 10 n ++ rest) = (n, ⟨rest, true⟩) := by
  have hl : ∀ x ∈ Nat.toDigits 10 n, x.isDigit = true := fun x hx =>
    Nat.isDigit_of_mem_toDigits (by decide) (by decide) hx
  -- The first character is a digit, and so no sign.
  have hsign : ∀ c, c.isDigit = false → (Nat.toDigits 10 n ++ rest).head? ≠ some c := by
    obtain ⟨d, ds, hd⟩ := List.exists_cons_of_ne_nil (@Nat.toDigits_ne_nil n 10)
    rintro c hc heq
    rw [hd, List.cons_append, List.head?_cons, Option.some_inj] at heq
    have hdigit := hl d (by rw [hd]; exact List.mem_cons_self)
    rw [heq, hc] at hdigit
    exact Bool.false_ne_true hdigit
  have hplus := hsign '+' (by decide)
  have hminus := hsign '-' (by decide)
  -- The digits end where the next character is none.
  have hdig : (Nat.toDigits 10 n ++ rest).takeWhile Char.isDigit = Nat.toDigits 10 n := by
    rw [List.takeWhile_append_of_pos hl]
    cases rest with
    | nil => rw [List.takeWhile_nil, List.append_nil]
    | cons c cs => simp [hrest c rfl]
  have hdrop : (Nat.toDigits 10 n ++ rest).dropWhile Char.isDigit = rest := by
    rw [List.dropWhile_append_of_pos hl]
    cases rest with
    | nil => rfl
    | cons c cs => simp [hrest c rfl]
  unfold number
  simp only [hplus, hminus, or_self, if_false, hdig, hdrop, Nat.toDigits_ne_nil,
    Nat.ofDigitChars_ten_toDigits, if_pos hn]

/-- A number is read back from its decimal digits, with a blank before them and after them. -/
theorem readUnsigned_append {ws : List Char} (hws : ∀ c ∈ ws, isSpace c = true) (n : UInt32)
    {c : Char} (hc : c.isDigit = false) (rest : List Char) (old : UInt32) :
    readUnsigned ⟨ws ++ (toString n.toNat).toList ++ c :: rest, true⟩ old =
      (n, ⟨c :: rest, true⟩) := by
  rw [Nat.toString_eq_repr, Nat.toList_repr]
  obtain ⟨d, ds, hd⟩ := List.exists_cons_of_ne_nil (@Nat.toDigits_ne_nil n.toNat 10)
  have hmem : d ∈ Nat.toDigits 10 n.toNat := by rw [hd]; exact List.mem_cons_self
  have hdigit : d.isDigit = true := Nat.isDigit_of_mem_toDigits (by decide) (by decide) hmem
  have hskip : (ws ++ Nat.toDigits 10 n.toNat ++ c :: rest).dropWhile isSpace =
      d :: (ds ++ c :: rest) := by
    rw [List.append_assoc, hd, List.cons_append]
    exact dropWhile_isSpace_append hws (isSpace_of_isDigit hdigit) _
  have hnumber : number UInt32.size (d :: (ds ++ c :: rest)) = (n.toNat, ⟨c :: rest, true⟩) := by
    rw [← List.cons_append, ← hd]
    exact number_append n.toNat_lt fun _ hx => Option.some_inj.mp hx ▸ hc
  unfold readUnsigned
  rw [if_pos rfl]
  simp only [hskip]
  rw [hnumber, Prod.map_apply, UInt32.ofNat_toNat, id]

/-- A line is read back from a text in which a newline ends it. -/
theorem getline_append {v : String} (hv : OneLine v) (rest : List Char) (old : String) :
    getline ⟨v.toList ++ '\n' :: rest, true⟩ old = (v, ⟨rest, true⟩) := by
  have hl : ∀ x ∈ v.toList, decide (x ≠ '\n') = true := by
    intro x hx
    rw [decide_eq_true_eq]
    rintro rfl
    exact hv hx
  obtain ⟨c, cs, htext⟩ : ∃ c cs, v.toList ++ '\n' :: rest = c :: cs :=
    List.exists_cons_of_ne_nil (by simp)
  unfold getline
  rw [if_pos rfl]
  simp only [htext]
  rw [← htext, List.takeWhile_append_of_pos hl, List.dropWhile_append_of_pos hl]
  simp

end IStream
