import SimpleDfs.Base.IStream
import SimpleDfs.Extent.Server

/-!
# The text of a directory

The content of a directory is a text, `inum@name/inum@name/...`: the entries are separated by
`ELEMENTSEPERATOR`, and the number of an entry from its name by `INUMSEPERATOR`. The functions of
`yfs_client.cc` that write this text and read it back are here. A name that FUSE passes is not empty
and has no `/` and no NUL in it, but it may have an `@`, and then only the part before the `@` is
read back (`parsebuf_writeDirent_eq_map`). So the entries of a directory are read back exactly when
no name has an `@` (`directory_codec_iff`). A text in which a piece has no `@`, or nothing after it,
cannot be read at all: the source then reads past the end of a vector.
-/

namespace SimpleDfs.Yfs

open Extent

/-- `yfs_client::inum`. The number of a file or a directory is that of its extent and of its
lock. -/
abbrev Inum := ExtentId

/-- A name, by its characters. -/
abbrev Name := List Char

/-- `yfs_client::dirent`. -/
structure Dirent where
  /-- The name. -/
  name : Name
  /-- The number. -/
  inum : Inum
  deriving DecidableEq, Repr

/-- `ELEMENTSEPERATOR`. -/
def elementSeperator : Char := '/'

/-- `INUMSEPERATOR`. -/
def inumSeperator : Char := '@'

/-- What is read at a `const char*`: the characters up to the first NUL. -/
def cString (buf : List Char) : List Char := buf.takeWhile (· ≠ '\x00')

/-- `yfs_client::isfile`. -/
def isfile (inum : Inum) : Bool := inum &&& 0x80000000 != 0

/-- `yfs_client::isdir`. -/
def isdir (inum : Inum) : Bool := !isfile inum

/-- `yfs_client::n2i`: `>>` into an `unsigned long long`. Where there is nothing to read, the source
does not set the number; it is `0` here. -/
def n2i (n : List Char) : Inum :=
  (IStream.number 18446744073709551616 (n.dropWhile IStream.isSpace)).1

/-- `yfs_client::createBuffElement`. -/
def createBuffElement (inum : Inum) (buf : List Char) : Buf :=
  (toString inum).toList ++ inumSeperator :: cString buf

/-- `yfs_client::split`, which reads with `getline` as long as there is a character left. A
separator at the end of the text ends the last piece, and no empty piece follows it. -/
def split (delim : Char) : List Char → List (List Char)
  | [] => []
  | c :: cs =>
    if c = delim then [] :: split delim cs
    else
      match split delim cs with
      | [] => [[c]]
      | item :: elems => (c :: item) :: elems

/-- `yfs_client::parseDirent`. It is `none` where a piece is missing: the source does not check for
that, and dereferences the end of the vector of pieces. -/
def parseDirent (value : List Char) : Option Dirent :=
  match split inumSeperator value with
  | number :: name :: _ => some ⟨name, n2i number⟩
  | _ => none

/-- `yfs_client::parsebuf`. -/
def parsebuf (buf : Buf) : Option (List Dirent) := (split elementSeperator buf).mapM parseDirent

/-- The entries in a text. A text that cannot be parsed has none. -/
def listed (buf : Buf) : List Dirent := (parsebuf buf).getD []

/-- `yfs_client::writeDirent`. -/
def writeDirent (entries : List Dirent) : Buf :=
  let loop := entries.foldl (fun (stream, firstLoop) entry =>
    let stream := if firstLoop then stream else stream ++ [elementSeperator]
    (stream ++ createBuffElement entry.inum entry.name, false)) (([] : Buf), true)
  loop.1

/-! ## Splitting -/

variable {name : Name} {item : List Char} {delim : Char}

/-- A piece ends at the first separator. -/
theorem split_append (h : delim ∉ item) (rest : List Char) :
    split delim (item ++ delim :: rest) = item :: split delim rest := by
  induction item with
  | nil => exact if_pos rfl
  | cons c item ih =>
    rw [List.mem_cons, not_or] at h
    rw [List.cons_append, split, if_neg (Ne.symm h.1), ih h.2]

/-- A text without a separator is one piece. -/
theorem split_eq_singleton (h : delim ∉ item) (hne : item ≠ []) : split delim item = [item] := by
  induction item with
  | nil => exact absurd rfl hne
  | cons c item ih =>
    rw [List.mem_cons, not_or] at h
    rw [split, if_neg (Ne.symm h.1)]
    by_cases hitem : item = []
    · rw [hitem, split]
    · rw [ih h.2 hitem]

/-- The first piece of a text that is not empty. -/
theorem split_eq_cons (delim : Char) (hne : item ≠ []) :
    ∃ pieces, split delim item = item.takeWhile (· ≠ delim) :: pieces := by
  induction item with
  | nil => exact absurd rfl hne
  | cons c item ih =>
    by_cases hc : c = delim
    · rw [split, if_pos hc, List.takeWhile_cons_of_neg (by simp [hc])]
      exact ⟨_, rfl⟩
    · rw [split, if_neg hc, List.takeWhile_cons_of_pos (by simp [hc])]
      by_cases hitem : item = []
      · rw [hitem]
        exact ⟨[], rfl⟩
      · obtain ⟨pieces, hpieces⟩ := ih hitem
        rw [hpieces]
        exact ⟨pieces, rfl⟩

/-- Pieces that are not empty are read back from their text. -/
theorem split_intercalate {items : List (List Char)}
    (h : ∀ item ∈ items, delim ∉ item ∧ item ≠ []) :
    split delim ([delim].intercalate items) = items := by
  induction items with
  | nil => rfl
  | cons item items ih =>
    obtain ⟨hdelim, hne⟩ := h item List.mem_cons_self
    have hrest := ih fun item' hitem' => h item' (List.mem_cons_of_mem _ hitem')
    cases items with
    | nil =>
      rw [List.intercalate_singleton]
      exact split_eq_singleton hdelim hne
    | cons item' items =>
      rw [List.intercalate_cons_cons, List.append_assoc, List.singleton_append,
        split_append hdelim, hrest]

/-! ## Entries -/

/-- A name that FUSE can pass: it is not empty, and has no `/` and no NUL in it. -/
structure FuseName (name : Name) : Prop where
  /-- It is not empty. -/
  ne_nil : name ≠ []
  /-- No entry ends in it. -/
  element : elementSeperator ∉ name
  /-- It does not end before its last character. -/
  nul : '\x00' ∉ name

instance (name : Name) : Decidable (FuseName name) :=
  decidable_of_iff (name ≠ [] ∧ elementSeperator ∉ name ∧ '\x00' ∉ name)
    ⟨fun h => ⟨h.1, h.2.1, h.2.2⟩, fun h => ⟨h.1, h.2, h.3⟩⟩

/-- A name that can be read back: it is not empty, and has none of the separators and no NUL in
it. -/
structure ValidName (name : Name) : Prop where
  /-- It is not empty. -/
  ne_nil : name ≠ []
  /-- No entry ends in it. -/
  element : elementSeperator ∉ name
  /-- No number ends in it. -/
  inum : inumSeperator ∉ name
  /-- It does not end before its last character. -/
  nul : '\x00' ∉ name

instance (name : Name) : Decidable (ValidName name) :=
  decidable_of_iff (name ≠ [] ∧ elementSeperator ∉ name ∧ inumSeperator ∉ name ∧ '\x00' ∉ name)
    ⟨fun h => ⟨h.1, h.2.1, h.2.2.1, h.2.2.2⟩, fun h => ⟨h.1, h.2, h.3, h.4⟩⟩

/-- FUSE can pass a valid name. -/
theorem ValidName.fuseName (h : ValidName name) : FuseName name :=
  ⟨h.ne_nil, h.element, h.nul⟩

/-- A name is a `const char*` as a whole. -/
theorem FuseName.cString_eq (h : FuseName name) : cString name = name := by
  refine List.takeWhile_eq_self_iff.mpr fun c hc => decide_eq_true ?_
  rintro rfl
  exact h.nul hc

/-- A valid name is a `const char*` as a whole. -/
theorem ValidName.cString_eq (h : ValidName name) : cString name = name :=
  h.fuseName.cString_eq

/-- An entry that can be read back. -/
structure Dirent.Valid (entry : Dirent) : Prop where
  /-- Its name can be. -/
  name : ValidName entry.name
  /-- Its number has 64 bits. -/
  inum : entry.inum < 18446744073709551616

/-- The text of a number has only digits. -/
theorem isDigit_of_mem_toString {inum : Inum} {c : Char} (h : c ∈ (toString inum).toList) :
    c.isDigit = true := by
  rw [Nat.toString_eq_repr, Nat.toList_repr] at h
  exact Nat.isDigit_of_mem_toDigits (by decide) (by decide) h

/-- The text of a number is not empty. -/
theorem toString_ne_nil (inum : Inum) : (toString inum).toList ≠ [] := by
  rw [Nat.toString_eq_repr, Nat.toList_repr]
  exact Nat.toDigits_ne_nil

/-- A number is read back from its text. -/
theorem n2i_toString {inum : Inum} (h : inum < 18446744073709551616) :
    n2i (toString inum).toList = inum := by
  -- There is no whitespace to skip, and no character after the digits.
  have hskip : (toString inum).toList.dropWhile IStream.isSpace = (toString inum).toList := by
    obtain ⟨d, ds, hd⟩ := List.exists_cons_of_ne_nil (toString_ne_nil inum)
    have hdigit : d.isDigit = true :=
      isDigit_of_mem_toString (show d ∈ (toString inum).toList by rw [hd]; exact List.mem_cons_self)
    rw [hd, List.dropWhile_cons_of_neg (by simp [IStream.isSpace_of_isDigit hdigit])]
  have hnumber := @IStream.number_append _ _ h [] (by simp)
  rw [List.append_nil, ← Nat.toList_repr, ← Nat.toString_eq_repr] at hnumber
  rw [n2i, hskip, hnumber]

/-- A separator is not in the text of a number. -/
theorem notMem_toString {c : Char} (h : c.isDigit = false) (inum : Inum) :
    c ∉ (toString inum).toList := by
  intro hc
  rw [isDigit_of_mem_toString hc] at h
  cases h

/-- What is read back of an entry: of its name only the part before the first `@`. -/
def Dirent.readBack (entry : Dirent) : Dirent :=
  ⟨entry.name.takeWhile (· ≠ inumSeperator), entry.inum⟩

/-- An entry whose name has no `@` is read back as it is, and no other one. -/
theorem Dirent.readBack_eq_iff (entry : Dirent) :
    entry.readBack = entry ↔ inumSeperator ∉ entry.name := by
  have hname : entry.readBack = entry ↔
      entry.name.takeWhile (· ≠ inumSeperator) = entry.name := by
    constructor
    · exact fun h => congrArg Dirent.name h
    · intro h
      unfold Dirent.readBack
      rw [h]
  rw [hname, List.takeWhile_eq_self_iff]
  constructor
  · intro h hmem
    exact of_decide_eq_true (h inumSeperator hmem) rfl
  · rintro h c hc
    refine decide_eq_true ?_
    rintro rfl
    exact h hc

/-- What is read back from the text of an entry. -/
theorem parseDirent_createBuffElement {entry : Dirent} (hname : FuseName entry.name)
    (hinum : entry.inum < 18446744073709551616) :
    parseDirent (createBuffElement entry.inum entry.name) = some entry.readBack := by
  obtain ⟨pieces, hpieces⟩ := split_eq_cons inumSeperator hname.ne_nil
  have hsplit : split inumSeperator (createBuffElement entry.inum entry.name) =
      (toString entry.inum).toList :: entry.name.takeWhile (· ≠ inumSeperator) :: pieces := by
    unfold createBuffElement
    rw [split_append (notMem_toString (by decide) _), hname.cString_eq, hpieces]
  unfold parseDirent
  rw [hsplit]
  dsimp only
  rw [n2i_toString hinum]
  rfl

/-- The text of an entry is a piece of its own. -/
theorem FuseName.piece (h : FuseName name) (inum : Inum) :
    elementSeperator ∉ createBuffElement inum name ∧ createBuffElement inum name ≠ [] := by
  unfold createBuffElement
  rw [h.cString_eq]
  refine ⟨fun hmem => ?_, by simp⟩
  rw [List.mem_append, List.mem_cons] at hmem
  rcases hmem with hnumber | hat | hname
  · exact notMem_toString (by decide) _ hnumber
  · exact absurd hat (by decide)
  · exact h.element hname

/-! ## Directories -/

/-- The text of a list of entries. -/
theorem writeDirent_eq_intercalate (entries : List Dirent) :
    writeDirent entries = [elementSeperator].intercalate
      (entries.map fun entry => createBuffElement entry.inum entry.name) := by
  -- After the first turn of the loop every entry comes with a separator before it.
  have hloop : ∀ (entries : List Dirent) (stream : Buf) (first : Dirent),
      (entries.foldl (fun (stream, firstLoop) entry =>
        let stream := if firstLoop then stream else stream ++ [elementSeperator]
        (stream ++ createBuffElement entry.inum entry.name, false))
          (stream ++ createBuffElement first.inum first.name, false)).1 =
        stream ++ [elementSeperator].intercalate ((first :: entries).map fun entry =>
          createBuffElement entry.inum entry.name) := by
    intro entries
    induction entries with
    | nil =>
      intro stream first
      rw [List.map_singleton, List.intercalate_singleton]
      rfl
    | cons entry entries ih =>
      intro stream first
      rw [List.foldl_cons, List.map_cons, List.map_cons, List.intercalate_cons_cons]
      simp only [Bool.false_eq_true, if_false]
      rw [ih, List.map_cons, List.append_assoc, List.append_assoc, List.append_assoc]
  cases entries with
  | nil => rfl
  | cons first entries =>
    unfold writeDirent
    rw [List.foldl_cons]
    simpa using hloop entries [] first

/-- What is read back from the text of a directory. -/
theorem parsebuf_writeDirent_eq_map {entries : List Dirent}
    (hnames : ∀ entry ∈ entries, FuseName entry.name)
    (hinums : ∀ entry ∈ entries, entry.inum < 18446744073709551616) :
    parsebuf (writeDirent entries) = some (entries.map Dirent.readBack) := by
  have hpieces : ∀ item ∈ entries.map fun entry => createBuffElement entry.inum entry.name,
      elementSeperator ∉ item ∧ item ≠ [] := by
    intro item hitem
    obtain ⟨entry, hentry, rfl⟩ := List.mem_map.mp hitem
    exact (hnames entry hentry).piece entry.inum
  rw [parsebuf, writeDirent_eq_intercalate, split_intercalate hpieces]
  clear hpieces
  induction entries with
  | nil => rfl
  | cons entry entries ih =>
    rw [List.forall_mem_cons] at hnames hinums
    rw [List.map_cons, List.mapM_cons, parseDirent_createBuffElement hnames.1 hinums.1,
      ih hnames.2 hinums.2]
    rfl

/-- The entries of a directory are read back from its text. -/
theorem parsebuf_writeDirent {entries : List Dirent} (h : ∀ entry ∈ entries, entry.Valid) :
    parsebuf (writeDirent entries) = some entries := by
  rw [parsebuf_writeDirent_eq_map (fun entry hentry => (h entry hentry).name.fuseName)
    fun entry hentry => (h entry hentry).inum]
  refine congrArg some ?_
  calc entries.map Dirent.readBack
      = entries.map id := List.map_congr_left fun entry hentry =>
        entry.readBack_eq_iff.mpr (h entry hentry).name.inum
    _ = entries := List.map_id entries

/-- The entries of a directory, with names that FUSE can pass and numbers of 64 bits, are read back
from its text exactly when no name has an `@` in it. -/
theorem directory_codec_iff {entries : List Dirent}
    (hnames : ∀ entry ∈ entries, FuseName entry.name)
    (hinums : ∀ entry ∈ entries, entry.inum < 18446744073709551616) :
    parsebuf (writeDirent entries) = some entries ↔
      ∀ entry ∈ entries, inumSeperator ∉ entry.name := by
  have hmap : entries.map Dirent.readBack = entries ↔
      ∀ entry ∈ entries, entry.readBack = entry := by
    constructor
    · intro h entry hentry
      have heq : entries.map Dirent.readBack = entries.map id := h.trans (List.map_id entries).symm
      exact List.map_inj_left.mp heq entry hentry
    · intro h
      rw [List.map_congr_left h, List.map_id']
  rw [parsebuf_writeDirent_eq_map hnames hinums, Option.some_inj, hmap]
  exact forall₂_congr fun entry _ => entry.readBack_eq_iff

/-- A file and a directory are read back. -/
theorem directory_codec_two_entries :
    parsebuf (writeDirent [⟨['a', ' ', '1'], 2147483653⟩, ⟨['2'], 18446744073709551615⟩]) =
      some [⟨['a', ' ', '1'], 2147483653⟩, ⟨['2'], 18446744073709551615⟩] :=
  (directory_codec_iff (by decide) (by decide)).mpr (by decide)

/-- A name with an `@` comes back cut. -/
theorem directory_codec_cuts_name : FuseName ['a', '@', 'b'] ∧
    parsebuf (writeDirent [⟨['a', '@', 'b'], 2147483653⟩]) = some [⟨['a'], 2147483653⟩] := by
  decide +kernel

/-- An entry is added at the end of the text. -/
theorem writeDirent_concat (entries : List Dirent) (entry : Dirent) :
    writeDirent (entries ++ [entry]) =
      (if entries.length ≠ 0 then writeDirent entries ++ [elementSeperator]
        else writeDirent entries) ++ createBuffElement entry.inum entry.name := by
  unfold writeDirent
  rw [List.foldl_append]
  cases entries with
  | nil => rfl
  | cons first entries =>
    have hfirst : ∀ (entries : List Dirent) (stream : Buf),
        (entries.foldl (fun (stream, firstLoop) entry =>
          let stream := if firstLoop then stream else stream ++ [elementSeperator]
          (stream ++ createBuffElement entry.inum entry.name, false)) (stream, false)).2 =
          false := by
      intro entries
      induction entries with
      | nil => exact fun _ => rfl
      | cons entry entries ih => exact fun _ => ih _
    simp only [List.foldl_cons, List.foldl_nil, List.length_cons, hfirst]
    simp

end SimpleDfs.Yfs
