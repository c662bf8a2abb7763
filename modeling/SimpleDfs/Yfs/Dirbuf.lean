import Mathlib.Algebra.GroupWithZero.Nat
import SimpleDfs.Yfs.Directory

/-!
# The entries of a directory, as the kernel reads them

`dirbuf_add` and `reply_buf_limited` of `fuse.cc`: the reply to `readdir` is a part of a buffer in
which the entries stand one behind the other, each with the place behind it as its offset. The bytes
of an entry are written by libfuse and read by the kernel, which are not part of the repository.
What is assumed of them is in `Libfuse` and `Kernel`.

The kernel takes complete entries from the front of a reply, as many as its caller has room for, and
asks for more at the offset of the last one that it took. An entry that was cut at the end of a
reply comes again in the next one. So every reply goes on where the one before it ended
(`Kernel.take_offsets`).
-/

namespace SimpleDfs.Yfs

open Extent

/-- The functions of libfuse that write entries. -/
class Libfuse where
  /-- `fuse_dirent_size`. -/
  direntSize : ℕ → ℕ
  /-- `fuse_add_dirent`, for an entry whose `struct stat` has only the number set. -/
  addDirent : Name → Inum → ℕ → Buf
  /-- An entry takes the room that `fuse_dirent_size` tells. -/
  length_addDirent : ∀ name ino off, (addDirent name ino off).length = direntSize name.length

open Libfuse

section

variable [Libfuse]

/-- `dirbuf_add`. -/
def dirbufAdd (b : Buf) (name : Name) (ino : Inum) : Buf :=
  let name := cString name
  b ++ addDirent name ino (b.length + direntSize name.length)

/-- `reply_buf_limited`, with what it replies. -/
def replyBufLimited (buf : Buf) (off maxsize : ℕ) : Buf :=
  if off < buf.length then (buf.drop off).take (min (buf.length - off) maxsize) else []

/-- The loop of `fuseserver_readdir` over the entries. -/
def dirbuf (contents : List Dirent) : Buf :=
  contents.foldl (fun b entry => dirbufAdd b entry.name entry.inum) []

/-- Some entries, each with its offset, one behind the other. -/
def written (dirents : List (Dirent × ℕ)) : Buf :=
  dirents.flatMap fun d => addDirent d.1.name d.1.inum d.2

/-- What the kernel does with a reply. -/
structure Kernel where
  /-- It can read the entry with that offset. -/
  Reads : Dirent → ℕ → Prop
  /-- What it takes from a reply for the position `pos`, when its caller has room for `limit`
  entries: the entries, and the position of its next request. -/
  take : ℕ → Buf → ℕ → List Dirent × ℕ
  /-- It takes entries from the front of the reply, which may be cut, and goes on at the offset of
  the last one. It takes one when there is room for one and the first one is complete. -/
  take_written : ∀ (limit n pos : ℕ) (dirents : List (Dirent × ℕ)),
    (∀ d ∈ dirents, Reads d.1 d.2) →
    ∃ k, take limit ((written dirents).take n) pos = ((dirents.take k).map Prod.fst,
        ((dirents.take k).getLast?.map Prod.snd).getD pos) ∧
      (0 < limit → (∀ d ∈ dirents, direntSize d.1.name.length ≤ n) → dirents ≠ [] → 0 < k)

/-! ## All entries -/

/-- The entries with the places behind them as their offsets, from the place `start` on. -/
def offsets : ℕ → List Dirent → List (Dirent × ℕ)
  | _, [] => []
  | start, entry :: entries =>
    (entry, start + direntSize entry.name.length) ::
      offsets (start + direntSize entry.name.length) entries

/-- The room that entries take. -/
def direntsSize (entries : List Dirent) : ℕ :=
  (entries.map fun entry => direntSize entry.name.length).sum

/-- The room of the first entry and of the others. -/
theorem direntsSize_cons (entry : Dirent) (entries : List Dirent) :
    direntsSize (entry :: entries) = direntSize entry.name.length + direntsSize entries := by
  rw [direntsSize, direntsSize, List.map_cons, List.sum_cons]

/-- The room of some entries and of those behind them. -/
theorem direntsSize_append (entries others : List Dirent) :
    direntsSize (entries ++ others) = direntsSize entries + direntsSize others := by
  rw [direntsSize, direntsSize, direntsSize, List.map_append, List.sum_append]

/-- An offset is at most the place behind the last entry. -/
theorem mem_offsets {start : ℕ} {entries : List Dirent} {d : Dirent × ℕ}
    (h : d ∈ offsets start entries) : d.1 ∈ entries ∧ d.2 ≤ start + direntsSize entries := by
  induction entries generalizing start with
  | nil => cases h
  | cons entry entries ih =>
    rw [direntsSize_cons, ← Nat.add_assoc]
    rcases List.mem_cons.mp h with rfl | hrest
    · exact ⟨List.mem_cons_self, Nat.le_add_right _ _⟩
    · obtain ⟨hmem, hle⟩ := ih hrest
      exact ⟨List.mem_cons_of_mem _ hmem, hle⟩

/-- The first entries, and the offset of the last one of them. -/
theorem take_offsets (start : ℕ) (entries : List Dirent) (k : ℕ) :
    ((offsets start entries).take k).map Prod.fst = entries.take k ∧
      (((offsets start entries).take k).getLast?.map Prod.snd).getD start =
        start + direntsSize (entries.take k) := by
  induction entries generalizing start k with
  | nil => cases k <;> exact ⟨rfl, rfl⟩
  | cons entry entries ih =>
    cases k with
    | zero => exact ⟨rfl, rfl⟩
    | succ k =>
      obtain ⟨hentries, hlast⟩ := ih (start + direntSize entry.name.length) k
      rw [offsets, List.take_succ_cons, List.take_succ_cons, List.map_cons, hentries,
        direntsSize_cons, ← Nat.add_assoc, ← hlast, List.getLast?_cons]
      refine ⟨rfl, ?_⟩
      cases ((offsets _ entries).take k).getLast? <;> rfl

/-- What is behind the first `k` entries. -/
theorem drop_written_offsets (start : ℕ) (entries : List Dirent) (k : ℕ) :
    (written (offsets start entries)).drop (direntsSize (entries.take k)) =
      written (offsets (start + direntsSize (entries.take k)) (entries.drop k)) := by
  induction entries generalizing start k with
  | nil =>
    rw [List.take_nil, List.drop_nil]
    rfl
  | cons entry entries ih =>
    cases k with
    | zero => rfl
    | succ k =>
      rw [List.take_succ_cons, List.drop_succ_cons, direntsSize_cons, offsets, written,
        List.flatMap_cons, ← List.drop_drop, List.drop_left' (length_addDirent ..), ← written, ih,
        Nat.add_assoc]

/-- The loop of `fuseserver_readdir` makes the entries one behind the other. -/
theorem dirbuf_eq {contents : List Dirent}
    (h : ∀ entry ∈ contents, cString entry.name = entry.name) :
    dirbuf contents = written (offsets 0 contents) := by
  have hloop : ∀ (b : Buf) (contents : List Dirent),
      (∀ entry ∈ contents, cString entry.name = entry.name) →
      contents.foldl (fun b entry => dirbufAdd b entry.name entry.inum) b =
        b ++ written (offsets b.length contents) := by
    intro b contents
    induction contents generalizing b with
    | nil => exact fun _ => (List.append_nil b).symm
    | cons entry contents ih =>
      intro h
      rw [List.foldl_cons, ih _ fun e he => h e (List.mem_cons_of_mem _ he), offsets, written,
        written, List.flatMap_cons]
      unfold dirbufAdd
      dsimp only
      rw [h entry List.mem_cons_self, List.append_assoc, List.length_append, length_addDirent]
  exact hloop [] contents h

/-- The kernel takes some of the entries of a reply in their order, and goes on behind the last one
that it took. When there is room for an entry, it takes one. -/
theorem Kernel.take_offsets (K : Kernel) {entries : List Dirent} {start : ℕ}
    (hentries : ∀ entry ∈ entries, ∀ off ≤ start + direntsSize entries, K.Reads entry off)
    (limit n : ℕ) :
    ∃ k, K.take limit ((written (offsets start entries)).take n) start =
        (entries.take k, start + direntsSize (entries.take k)) ∧
      (0 < limit → (∀ entry ∈ entries, direntSize entry.name.length ≤ n) →
        0 < entries.length → 0 < k) := by
  obtain ⟨k, htake, hk⟩ := K.take_written limit n start (offsets start entries) fun d hd =>
    hentries d.1 (mem_offsets hd).1 d.2 (mem_offsets hd).2
  obtain ⟨hfst, hsnd⟩ := Yfs.take_offsets start entries k
  refine ⟨k, by rw [htake, hfst, hsnd], fun hlimit hfits hlength => hk hlimit
    (fun d hd => hfits d.1 (mem_offsets hd).1) ?_⟩
  cases entries with
  | nil => cases hlength
  | cons entry entries => exact List.cons_ne_nil _ _

end

/-! ## A small format -/

/-- An entry is written as its number, its offset, and its name. -/
@[reducible] def tinyLibfuse : Libfuse where
  direntSize n := n + 2
  addDirent name ino off := Char.ofNat ino :: Char.ofNat off :: name
  length_addDirent _ _ _ := rfl

end SimpleDfs.Yfs
