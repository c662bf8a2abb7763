import SimpleDfs.Rpc.Decoding
import SimpleDfs.Rpc.RoundTrip

/-!
# Messages of the wrong length

A message that was cut short, or that has bytes behind its end, is not taken for a whole one.
Behind the end, the position does not reach the size. In a message that was cut, the extraction that
meets the cut clears `_ok`, wherever the cut is (`Cuts`): in a byte of a number, in the bytes of a
string, in the count of a vector, after which the loop goes on with a count made of what was there,
or in an element. No extraction sets `_ok` again (`Broken`), so that `okdone` is `false` in the end.

As for reading back, the law is proved for pairs and carried over to the other types: an extraction
leaves the `unmarshall` as that of its parts does.
-/

namespace SimpleDfs.Rpc

/-- Something that was asked for was not there. -/
def Broken (u : Unmarshall) : Prop := u.ok = false

/-- The bytes `c` are a proper part of `d`, from its start on. -/
def Cut (c d : Bytes) : Prop := c <+: d ∧ c ≠ d

/-- Data that was cut is shorter. -/
theorem Cut.length_lt {c d : Bytes} (h : Cut c d) : c.length < d.length :=
  Nat.lt_of_le_of_ne h.1.length_le fun heq => h.2 (h.1.eq_of_length heq)

/-- Where two pieces of data are cut: in the first one, or in the second one. -/
theorem Cut.append {c d e : Bytes} (h : Cut c (d ++ e)) :
    Cut c d ∨ ∃ c', c = d ++ c' ∧ Cut c' e := by
  obtain ⟨hpre, hne⟩ := h
  by_cases hd : d <+: c
  · obtain ⟨c', rfl⟩ := hd
    refine Or.inr ⟨c', rfl, (List.prefix_append_right_inj d).mp hpre, ?_⟩
    rintro rfl
    exact hne rfl
  · refine Or.inl ⟨?_, ?_⟩
    · exact (List.prefix_or_prefix_of_prefix hpre (List.prefix_append d e)).resolve_right hd
    · rintro rfl
      exact hd List.prefix_rfl

/-- The `unmarshall` after the extraction of a value. -/
def rest (α : Type) [Wire α] (u : Unmarshall) : Unmarshall := (get u : α × Unmarshall).2

/-- A message that ends in the bytes of the value breaks its extraction. -/
def Cuts {α : Type} [Wire α] (x : α) : Prop :=
  ∀ {u : Unmarshall} {b : Bytes} {k : ℕ}, At u b k → Cut (b.drop k) (data x) →
    k + (data x).length < intLimit → Broken (rest α u)

/-- A type whose operator `>>` notices a message that was cut. -/
class CutWire (α : Type) [Wire α] : Prop extends LawfulWire α where
  /-- An extraction does not mend what is broken. -/
  broken : Keeps Broken α
  /-- A value that was cut breaks the extraction. -/
  cuts : ∀ x : α, Cuts x

export CutWire (broken cuts)

/-! ## Bytes and pairs -/

section Parts

variable {α β ε : Type} [Wire α] [Wire β] [Wire ε]
variable {u : Unmarshall} {b e : Bytes} {k : ℕ}

/-- There is no byte behind the end. -/
theorem At.rawbyte_broken (h : At u b b.length) : Broken u.rawbyte.2 := by
  have hend : u.ind ≥ u.sz := by rw [h.ind, h.sz]
  unfold Unmarshall.rawbyte
  rw [if_pos hend]
  rfl

/-- Data of one byte is cut only when it is not there at all. -/
theorem At.end_of_cut {x : UInt8} (h : At u b k) (hcut : Cut (b.drop k) [x]) : At u b b.length := by
  have hlt := hcut.length_lt
  rw [List.length_drop, List.length_singleton] at hlt
  have hle := h.le
  obtain rfl : k = b.length := by omega
  exact h

/-- A value is there as a whole, or the message ends in it. -/
theorem At.get_or_cut {x : α} (hx : Decodes x) (h : At u b k)
    (hcut : Cut (b.drop k) (data x ++ e)) :
    Cut (b.drop k) (data x) ∨
      ∃ u', Wire.get u = (x, u') ∧ At u' b (k + (data x).length) ∧
        Cut (b.drop (k + (data x).length)) e := by
  refine hcut.append.imp_right ?_
  rintro ⟨c', heq, hcut'⟩
  obtain ⟨u', hu', hat⟩ := hx h ⟨c', heq.symm⟩
  refine ⟨u', hu', hat, ?_⟩
  rw [← List.drop_drop, heq, List.drop_left]
  exact hcut'

/-- The parts of a pair are read one after the other. -/
theorem rest_pair (u : Unmarshall) : rest (α × β) u = rest β (rest α u) := rfl

instance [CutWire α] [CutWire β] : CutWire (α × β) where
  broken := keeps_pair broken broken
  cuts := by
    rintro ⟨x, y⟩ u b k h hcut hsmall
    rw [data_pair] at hcut hsmall
    rw [List.length_append] at hsmall
    rw [rest_pair]
    rcases h.get_or_cut (decodes x) hcut with hcut | ⟨u', hu', hat, hcut⟩
    · exact broken _ (cuts x h hcut (by omega))
    · rw [rest, rest, hu']
      exact cuts y hat hcut (by omega)

/-- A type whose values are written as those of another one, and whose extraction leaves the
`unmarshall` as the one of that type does. -/
theorem CutWire.transfer [LawfulWire ε] [CutWire α] (f : ε → α) (hdata : ∀ y, data y = data (f y))
    (hrest : ∀ u, rest ε u = rest α u) : CutWire ε where
  broken u h := by
    show Broken (rest ε u)
    rw [hrest]
    exact broken u h
  cuts y := by
    intro u b k h hcut hsmall
    rw [hdata] at hcut hsmall
    rw [hrest]
    exact cuts (f y) h hcut hsmall

/-- A type whose values are converted to those of another one. -/
theorem Converts.cutWire [CutWire α] {f : ε → α} (h : Converts f) : CutWire ε := by
  have := h.lawful
  obtain ⟨g, -, hget⟩ := h.get_eq
  refine .transfer f h.data_eq fun u => ?_
  rw [rest, hget]
  rfl

end Parts

/-! ## The built-in types -/

/-- A byte that was not there is not mended by the next one. -/
theorem broken_rawbyte {u : Unmarshall} (h : Broken u) : Broken u.rawbyte.2 := by
  unfold Unmarshall.rawbyte
  split_ifs
  · rfl
  · exact h

instance : CutWire UInt8 where
  broken _ h := broken_rawbyte h
  cuts _ := fun h hcut _ => (h.end_of_cut hcut).rawbyte_broken

instance : CutWire Bool :=
  .transfer (fun x => if x then (1 : UInt8) else 0) (fun _ => rfl) fun _ => rfl

open BigEndian in
instance : CutWire UInt16 :=
  .transfer (fun x => (byte x.toUInt32 8, byte x.toUInt32 0)) (fun _ => rfl) fun _ => rfl

open BigEndian in
instance : CutWire UInt32 :=
  .transfer (fun x => (byte x 24, byte x 16, byte x 8, byte x 0)) (fun _ => rfl) fun _ => rfl

/-! ## Strings, vectors and maps -/

/-- A string that is longer than what is left breaks the extraction. -/
theorem At.rawbytes_broken {u : Unmarshall} {b : Bytes} {k n : ℕ} (h : At u b k)
    (hlong : b.length < k + n) (hsmall : k + n < intLimit) : Broken (u.rawbytes n).2 := by
  have hlength := h.small
  unfold intLimit at hsmall hlength
  have hcheck : toUnsigned (u.ind + n) > toUnsigned u.sz := by
    rw [h.ind, h.sz]
    unfold toUnsigned
    omega
  unfold Unmarshall.rawbytes
  rw [if_pos hcheck]
  rfl

/-- The extraction of a string does not mend what is broken. -/
theorem broken_str : Keeps Broken Str := by
  intro u h
  have hlength : Broken (get u : UInt32 × Unmarshall).2 := broken u h
  rw [get_str]
  dsimp only
  rw [if_neg (by rw [hlength]; simp)]
  exact hlength

instance : CutWire Str where
  broken := broken_str
  cuts s := by
    intro u b k h hcut hsmall
    rw [data_str] at hcut hsmall
    rw [List.length_append] at hsmall
    rw [rest, get_str]
    rcases h.get_or_cut (decodes _) hcut with hcut | ⟨u₁, hn, hat, hcut⟩
    · -- The message ends in the length.
      have hlength : Broken (get u : UInt32 × Unmarshall).2 := cuts _ h hcut (by omega)
      dsimp only
      rw [if_neg (by rw [hlength]; simp)]
      exact hlength
    · have hlt := hcut.length_lt
      rw [List.length_drop] at hlt
      have hlen : (UInt32.ofNat s.data.length).toNat = s.data.length :=
        toNat_ofNat_length le_rfl (by omega)
      rw [hn]
      dsimp only
      rw [if_pos hat.ok, hlen]
      exact hat.rawbytes_broken (by omega) (by omega)

section Containers

variable {α β : Type} [Wire α] [CutWire α] [Wire β] [CutWire β]

/-- A message that ends in an element of a vector breaks the loop. -/
theorem At.getLoop_broken {u : Unmarshall} {b : Bytes} {k : ℕ} (v : List α) (h : At u b k)
    (hcut : Cut (b.drop k) (v.flatMap data)) (hsmall : k + (v.flatMap data).length < intLimit) :
    Broken (Rpc.getLoop v.length u : List α × Unmarshall).2 := by
  induction v generalizing u k with
  | nil => exact absurd hcut.length_lt (Nat.not_lt_zero _)
  | cons z v ih =>
    rw [List.flatMap_cons] at hcut hsmall
    rw [List.length_append] at hsmall
    rw [List.length_cons, Rpc.getLoop]
    rcases h.get_or_cut (decodes z) hcut with hcut | ⟨u₁, hz, hat, hcut⟩
    · exact keeps_getLoop broken _ (cuts z h hcut (by omega))
    · rw [hz]
      exact ih hat hcut (by omega)

instance : CutWire (List α) where
  broken := keeps_vector broken broken
  cuts v := by
    intro u b k h hcut hsmall
    rw [data_vector] at hcut hsmall
    rw [List.length_append] at hsmall
    rw [rest, get_vector]
    rcases h.get_or_cut (decodes _) hcut with hcut | ⟨u₁, hn, hat, hcut⟩
    · -- The message ends in the count, and the loop goes on with what was there of it.
      exact keeps_getLoop broken _ (cuts _ h hcut (by omega))
    · have hlen : (UInt32.ofNat v.length).toNat = v.length :=
        toNat_ofNat_length (length_le_flatMap data_pos) (by omega)
      rw [hn]
      dsimp only
      rw [hlen]
      exact hat.getLoop_broken v hcut (by omega)

/-- A message that ends in an entry of a map breaks the loop. -/
theorem At.getMapLoop_broken [LinearOrder α] {u : Unmarshall} {b : Bytes} {k : ℕ}
    (d : StdMap α β) (es : List (α × β)) (h : At u b k)
    (hcut : Cut (b.drop k) (es.flatMap fun e => data e.1 ++ data e.2))
    (hsmall : k + (es.flatMap fun e => data e.1 ++ data e.2).length < intLimit) :
    Broken (Rpc.getMapLoop es.length d u).2 := by
  induction es generalizing u k d with
  | nil => exact absurd hcut.length_lt (Nat.not_lt_zero _)
  | cons e es ih =>
    rw [List.flatMap_cons, List.append_assoc] at hcut hsmall
    rw [List.length_append, List.length_append] at hsmall
    rw [List.length_cons, Rpc.getMapLoop]
    rcases h.get_or_cut (decodes e.1) hcut with hcut | ⟨u₁, h₁, hat, hcut⟩
    · exact keeps_getMapLoop broken broken _ _ (broken _ (cuts e.1 h hcut (by omega)))
    · rw [h₁]
      dsimp only
      rcases hat.get_or_cut (decodes e.2) hcut with hcut | ⟨u₂, h₂, hat, hcut⟩
      · exact keeps_getMapLoop broken broken _ _ (cuts e.2 hat hcut (by omega))
      · rw [h₂]
        exact ih _ hat hcut (by omega)

instance [LinearOrder α] : CutWire (StdMap α β) where
  broken := keeps_map broken broken broken
  cuts d := by
    intro u b k h hcut hsmall
    rw [data_map] at hcut hsmall
    rw [List.length_append] at hsmall
    rw [rest, get_map]
    rcases h.get_or_cut (decodes _) hcut with hcut | ⟨u₁, hn, hat, hcut⟩
    · exact keeps_getMapLoop broken broken _ _ (cuts _ h hcut (by omega))
    · have hlen : (UInt32.ofNat d.entries.length).toNat = d.entries.length :=
        toNat_ofNat_length (length_le_flatMap data_entry_pos) (by omega)
      rw [hn]
      dsimp only
      rw [hlen]
      exact hat.getMapLoop_broken .empty d.entries hcut (by omega)

end Containers

/-- The operators of every type notice a cut. -/
instance Ty.cutWire (t : Ty) : CutWire t.interp :=
  Closed.ty (C := fun α _ => CutWire α)
    { bool := inferInstance
      uchar := inferInstance
      ushort := inferInstance
      uint := inferInstance
      string := inferInstance
      vector := fun _ => inferInstance
      map := fun _ _ => inferInstance
      pair := fun _ _ => inferInstance
      convert := fun h _ => h.cutWire } t

/-! ## Whole messages -/

section Messages

variable {u : Unmarshall} {b : Bytes} {k : ℕ}

/-- The values of a sequence of types do not mend what is broken. -/
theorem broken_getAll (ts : List Ty) (h : Broken u) : Broken (getAll ts u).2 := by
  induction ts generalizing u with
  | nil => exact h
  | cons t ts ih => exact ih ((Ty.cutWire t).broken u h)

/-- The bytes of a sequence of values. -/
theorem bytesOf_putAll_cons (v : Val) (vs : List Val) :
    bytesOf (putAll (v :: vs)) = data v.2 ++ bytesOf (putAll vs) := by
  rw [putAll, List.flatMap_cons, bytesOf_append]
  rfl

/-- A message that ends in a value of a sequence breaks the extraction of the sequence. -/
theorem At.getAll_broken (vs : List Val) (h : At u b k)
    (hcut : Cut (b.drop k) (bytesOf (putAll vs)))
    (hsmall : k + (bytesOf (putAll vs)).length < intLimit) :
    Broken (Rpc.getAll (vs.map Sigma.fst) u).2 := by
  induction vs generalizing u k with
  | nil => exact absurd hcut.length_lt (Nat.not_lt_zero _)
  | cons v vs ih =>
    rw [bytesOf_putAll_cons] at hcut hsmall
    rw [List.length_append] at hsmall
    rw [List.map_cons, Rpc.getAll]
    rcases h.get_or_cut (decodes v.2) hcut with hcut | ⟨u₁, hv, hat, hcut⟩
    · exact broken_getAll _ (cuts v.2 h hcut (by omega))
    · rw [hv]
      exact ih hat hcut (by omega)

/-- A broken `unmarshall` is not `okdone`. -/
theorem Broken.okdone (h : Broken u) : u.okdone = false := by
  rw [Unmarshall.okdone, h, Bool.false_and]

/-- No extraction mends what is broken. -/
theorem broken_extract {op : Extraction} (hop : op ≠ .takeIn) (h : Broken u) :
    Broken (u.extract op) := by
  cases op with
  | value t => exact (Ty.cutWire t).broken u h
  | header kind =>
    -- Setting the position does not touch `_ok`.
    exact keeps_header converts_int.cutWire.broken (fun _ hu => hu) (fun _ hu => hu) kind h
  | takeIn => exact absurd rfl hop

/-- No sequence of extractions mends what is broken. -/
theorem broken_extractAll {ops : List Extraction} (hops : .takeIn ∉ ops) (h : Broken u) :
    Broken (u.extractAll ops) := by
  induction ops generalizing u with
  | nil => exact h
  | cons op ops ih =>
    rw [List.mem_cons, not_or] at hops
    exact ih hops.2 (broken_extract (Ne.symm hops.1) h)

end Messages

/-- What `marshalled` gives is a message. -/
theorem message_of_marshalled {memory : ℕ → UInt8} {h : Header} {vs : List Val} {b : Bytes}
    (hb : marshalled memory h vs = some b) : Message b h vs := by
  by_cases hfits : Fits defaultRpcSz rpcHeaderSz (sizes vs)
  · obtain ⟨b', hb', hmessage⟩ := marshalled_of_fits memory h hfits
    rw [hb] at hb'
    obtain rfl := Option.some.inj hb'
    exact hmessage
  · rw [marshalled_of_not_fits memory h hfits] at hb
    cases hb

/-- Values are not extracted from a block that holds only the first part of their bytes behind the
header, or more than their bytes. An extraction that fails is not mended by later ones. -/
theorem wrong_length_rejected :
    (∀ memory h vs b, marshalled memory h vs = some b →
      ∀ u block, At u block rpcHeaderSz →
        Cut (block.drop rpcHeaderSz) (b.drop rpcHeaderSz) ∨
          Cut (b.drop rpcHeaderSz) (block.drop rpcHeaderSz) →
        (getAll (vs.map Sigma.fst) u).2.okdone = false) ∧
    ∀ (u : Unmarshall) (ops : List Extraction), u.ok = false → .takeIn ∉ ops →
      (u.extractAll ops).okdone = false := by
  refine ⟨fun memory h vs b hb u block hat hlength => ?_, fun u ops hok hops => ?_⟩
  · have hmessage := message_of_marshalled hb
    rw [hmessage.values] at hlength
    rcases hlength with hcut | hextra
    · have hsmall : rpcHeaderSz + (bytesOf (putAll vs)).length < intLimit := by
        have hlength : b.length = _ := hmessage.length
        rw [totalSize] at hlength
        exact hlength ▸ hmessage.small
      exact (hat.getAll_broken vs hcut hsmall).okdone
    · obtain ⟨u', hget, hat'⟩ := hat.getAll vs hextra.1
      have hlt := hextra.length_lt
      rw [List.length_drop] at hlt
      rw [hget]
      exact hat'.not_okdone (by omega)
  · exact (broken_extractAll hops hok).okdone

/-- A string of two bytes of which only the first one has come. -/
theorem wrong_length_rejected_cut_string :
    (getAll [.key .string] (.ofContent (fun _ => 0) [0, 0, 0, 2, 7])).2.okdone = false := by
  let vs : List Val := [⟨.key .string, (⟨[7, 8]⟩ : Str)⟩]
  have hfits : Fits defaultRpcSz rpcHeaderSz (sizes vs) := by decide
  obtain ⟨b, hb, hmessage⟩ := marshalled_of_fits (fun _ => 0) (.req ⟨1, 2, 3, 4, 0⟩) hfits
  have hat : At (.ofContent (fun _ => 0) [0, 0, 0, 2, 7])
      ((List.range rpcHeaderSz).map (fun _ => 0) ++ [0, 0, 0, 2, 7]) rpcHeaderSz :=
    ⟨rfl, by decide, rfl, rfl, by decide, by decide⟩
  refine wrong_length_rejected.1 _ _ vs b hb _ _ hat (Or.inl ?_)
  rw [hmessage.values]
  exact ⟨⟨[8], by decide⟩, by decide⟩

end SimpleDfs.Rpc
