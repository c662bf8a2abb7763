import SimpleDfs.Rpc.Types

/-!
# Reading back

The bytes that the operators `<<` write for a value are read by `>>` as the same value, wherever
they stand in a block, and the read position moves behind them. This is a law of a type
(`LawfulWire`). It is proved for the built-in types from the laws of words and bytes. A struct is
written and read as the tuple of its fields (`Converts`), so a law that carries over to vectors,
maps, pairs and conversions holds for every type that is marshalled (`Closed.ty`, `Ty.lawful`).
-/

namespace SimpleDfs.Rpc

open BigEndian

/-- An `unmarshall` is at position `k` of the block `b`, and all went well so far. -/
structure At (u : Unmarshall) (b : Bytes) (k : ℕ) : Prop where
  /-- The block. -/
  buf : u.buf = b
  /-- The size is that of the block. -/
  sz : u.sz = b.length
  /-- The position. -/
  ind : u.ind = k
  /-- All went well. -/
  ok : u.ok = true
  /-- The position is in the block. -/
  le : k ≤ b.length
  /-- The size is an `int`. -/
  small : b.length < intLimit

/-- Data that stands at a position, in two parts. -/
theorem prefix_append {d e b : Bytes} {k : ℕ} (h : d ++ e <+: b.drop k) :
    d <+: b.drop k ∧ e <+: b.drop (k + d.length) := by
  obtain ⟨rest, hrest⟩ := h
  rw [List.append_assoc] at hrest
  refine ⟨⟨e ++ rest, hrest⟩, ⟨rest, ?_⟩⟩
  rw [← List.drop_drop, ← hrest, List.drop_left]

/-- Data that stands at a position ends in the block. -/
theorem end_le_length {d b : Bytes} {k : ℕ} (hk : k ≤ b.length) (h : d <+: b.drop k) :
    k + d.length ≤ b.length := by
  have hle := h.length_le
  rw [List.length_drop] at hle
  omega

namespace At

variable {u : Unmarshall} {b d : Bytes} {k : ℕ}

/-- A byte is read. -/
theorem rawbyte {x : UInt8} (h : At u b k) (hd : [x] <+: b.drop k) :
    ∃ u', u.rawbyte = (widen x, u') ∧ At u' b (k + 1) := by
  have hlt : k + 1 ≤ b.length := end_le_length h.le hd
  have hx : b.getD k 0 = x := by
    obtain ⟨rest, hrest⟩ := hd
    rw [List.getD_eq_getElem?_getD, ← Nat.add_zero k, ← List.getElem?_drop, ← hrest]
    rfl
  have hpeek : u.peek u.ind = x := by
    unfold Unmarshall.peek
    rw [h.ind, if_pos (Int.natCast_nonneg k), h.buf, Int.toNat_natCast, hx]
  have hnot : ¬ u.ind ≥ u.sz := by
    rw [h.ind, h.sz]
    omega
  have hnext : u.ind + 1 = ((k + 1 : ℕ) : ℤ) := by
    rw [h.ind]
    rfl
  unfold Unmarshall.rawbyte
  rw [if_neg hnot, hpeek]
  exact ⟨_, rfl, h.buf, h.sz, hnext, h.ok, hlt, h.small⟩

/-- The bytes of a string are read. -/
theorem rawbytes (h : At u b k) (hd : d <+: b.drop k) :
    ∃ u', u.rawbytes d.length = (d, u') ∧ At u' b (k + d.length) := by
  have hle : k + d.length ≤ b.length := end_le_length h.le hd
  have hsmall := h.small
  unfold intLimit at hsmall
  have hnot : ¬ toUnsigned (u.ind + d.length) > toUnsigned u.sz := by
    rw [h.ind, h.sz]
    unfold toUnsigned
    omega
  have hbytes : ((List.range d.length).map fun (j : ℕ) => u.peek (u.ind + j)) = d := by
    refine List.ext_getElem (by simp) fun j hj hj' => ?_
    obtain ⟨rest, hrest⟩ := hd
    have hget : b.getD (k + j) 0 = d[j] := by
      rw [List.getD_eq_getElem?_getD, ← List.getElem?_drop, ← hrest,
        List.getElem?_append_left hj', List.getElem?_eq_getElem hj']
      rfl
    have hpos : (0 : ℤ) ≤ k + j := by omega
    have hnat : ((k : ℤ) + j).toNat = k + j := by omega
    rw [List.getElem_map, List.getElem_range, Unmarshall.peek, h.ind, if_pos hpos, hnat, h.buf,
      hget]
  have hnext : toInt (toUnsigned (u.ind + d.length)) = ((k + d.length : ℕ) : ℤ) := by
    rw [h.ind]
    unfold toInt toUnsigned
    omega
  unfold Unmarshall.rawbytes
  rw [if_neg hnot, hbytes]
  exact ⟨_, rfl, h.buf, h.sz, hnext, h.ok, hle, h.small⟩

/-- A header operation sets the position. -/
theorem seek (h : At u b k) {j : ℕ} (hj : j ≤ b.length) : At (u.seek j) b j :=
  ⟨h.buf, h.sz, rfl, h.ok, hj, h.small⟩

/-- At the end, everything was read. -/
theorem okdone (h : At u b b.length) : u.okdone = true := by
  unfold Unmarshall.okdone
  rw [h.ok, h.ind, h.sz]
  simp

/-- Before the end, something is left. -/
theorem not_okdone (h : At u b k) (hk : k < b.length) : u.okdone = false := by
  have hne : u.ind ≠ u.sz := by
    rw [h.ind, h.sz]
    omega
  rw [Unmarshall.okdone, beq_eq_false_iff_ne.mpr hne, Bool.and_false]

end At

/-- The bytes of a value. -/
def data {α : Type} [Wire α] (x : α) : Bytes := bytesOf (put x)

/-- The bytes of a value are read as the value, wherever they stand. -/
def Decodes {α : Type} [Wire α] (x : α) : Prop :=
  ∀ {u : Unmarshall} {b : Bytes} {k : ℕ}, At u b k → data x <+: b.drop k →
    ∃ u', get u = (x, u') ∧ At u' b (k + (data x).length)

/-- A type whose operators match. -/
class LawfulWire (α : Type) [Wire α] : Prop where
  /-- There is at least one byte to a value. -/
  data_pos : ∀ x : α, 0 < (data x).length
  /-- Values are read as they were written. -/
  decodes : ∀ x : α, Decodes x

export LawfulWire (data_pos decodes)

section BuiltIn

variable {u : Unmarshall}

theorem get_bool : (get u : Bool × Unmarshall) =
    match u.rawbyte with
    | (b, u) => (b != 0, u) := rfl

theorem get_uchar : (get u : UInt8 × Unmarshall) =
    match u.rawbyte with
    | (b, u) => (b.toUInt8, u) := rfl

end BuiltIn

instance : LawfulWire Bool where
  data_pos _ := Nat.one_pos
  decodes x := by
    intro u b k h hd
    obtain ⟨u', hx, hat⟩ := h.rawbyte hd
    refine ⟨u', ?_, hat⟩
    rw [get_bool, hx]
    cases x <;> rfl

instance : LawfulWire UInt8 where
  data_pos _ := Nat.one_pos
  decodes x := by
    intro u b k h hd
    obtain ⟨u', hx, hat⟩ := h.rawbyte hd
    refine ⟨u', ?_, hat⟩
    rw [get_uchar, hx]
    dsimp only
    rw [toUInt8_widen]

instance : LawfulWire UInt16 where
  data_pos _ := Nat.two_pos
  decodes x := by
    intro u b k h hd
    obtain ⟨hd₀, hd₁⟩ := prefix_append (d := [byte x.toUInt32 8]) hd
    obtain ⟨u₀, h₀, hat⟩ := h.rawbyte hd₀
    obtain ⟨u₁, h₁, hat⟩ := hat.rawbyte hd₁
    refine ⟨u₁, ?_, hat⟩
    have hget : get u = (halfWord (widen (byte x.toUInt32 8)) (widen (byte x.toUInt32 0)), u₁) := by
      dsimp only [get]
      rw [h₀]
      dsimp only
      rw [h₁]
    rw [hget, halfWord_byte]

instance : LawfulWire UInt32 where
  data_pos _ := Nat.zero_lt_succ 3
  decodes x := by
    intro u b k h hd
    obtain ⟨hd₀, hd⟩ := prefix_append (d := [byte x 24]) hd
    obtain ⟨u₀, h₀, hat⟩ := h.rawbyte hd₀
    obtain ⟨hd₁, hd⟩ := prefix_append (d := [byte x 16]) hd
    obtain ⟨u₁, h₁, hat⟩ := hat.rawbyte hd₁
    obtain ⟨hd₂, hd₃⟩ := prefix_append (d := [byte x 8]) hd
    obtain ⟨u₂, h₂, hat⟩ := hat.rawbyte hd₂
    obtain ⟨u₃, h₃, hat⟩ := hat.rawbyte hd₃
    refine ⟨u₃, ?_, hat⟩
    have hget : get u = (word (widen (byte x 24)) (widen (byte x 16)) (widen (byte x 8))
        (widen (byte x 0)), u₃) := by
      dsimp only [get]
      rw [h₀]
      dsimp only
      rw [h₁]
      dsimp only
      rw [h₂]
      dsimp only
      rw [h₃]
    rw [hget, word_byte]

section Parts

variable {α β ε : Type} [Wire α] [Wire β] [Wire ε]
variable {u : Unmarshall} {b e : Bytes} {k : ℕ} {x : α} {r : ε}

/-- A value is read, and what follows it comes next. -/
theorem At.get (hx : Decodes x) (h : At u b k) (hd : data x ++ e <+: b.drop k) :
    ∃ u', Wire.get u = (x, u') ∧ At u' b (k + (data x).length) ∧
      e <+: b.drop (k + (data x).length) := by
  obtain ⟨hdx, he⟩ := prefix_append hd
  obtain ⟨u', hu', hat⟩ := hx h hdx
  exact ⟨u', hu', hat, he⟩

/-- A value that starts with a field has a byte. -/
theorem data_pos_of_field [LawfulWire α] {cs : List Chunk} (h : put r = put x ++ cs) :
    0 < (data r).length := by
  have hx : 0 < (data x).length := data_pos x
  unfold data at hx ⊢
  rw [h, bytesOf_append, List.length_append]
  omega

/-- The operators for a pair are those for its parts. -/
instance : Wire (α × β) where
  put x := put x.1 ++ put x.2
  get u :=
    let x : α × Unmarshall := get u
    let y : β × Unmarshall := get x.2
    ((x.1, y.1), y.2)

/-- The bytes of a pair. -/
theorem data_pair (x : α) (y : β) : data (x, y) = data x ++ data y := bytesOf_append ..

instance [LawfulWire α] [LawfulWire β] : LawfulWire (α × β) where
  data_pos _ := data_pos_of_field (α := α) rfl
  decodes := by
    rintro ⟨x, y⟩ u b k h hd
    rw [data_pair] at hd ⊢
    obtain ⟨u₁, h₁, hat, hd⟩ := h.get (decodes x) hd
    obtain ⟨u₂, h₂, hat⟩ := decodes y hat hd
    rw [List.length_append, ← Nat.add_assoc]
    refine ⟨u₂, ?_, hat⟩
    dsimp only [Wire.get]
    rw [h₁, h₂]

/-- The values of a type are written as those of another one, and read as those and converted
back. -/
structure Converts (f : ε → α) : Prop where
  /-- What is written. -/
  data_eq : ∀ y, data y = data (f y)
  /-- What is read. -/
  get_eq : ∃ g : α → ε, (∀ y, g (f y) = y) ∧
    ∀ u : Unmarshall, Wire.get u = Prod.map g id (Wire.get u)

/-- The operators match if those of the other type do. -/
theorem Converts.lawful [LawfulWire α] {f : ε → α} (h : Converts f) : LawfulWire ε where
  data_pos y := by
    rw [h.data_eq]
    exact data_pos _
  decodes y := by
    intro u b k hat hd
    obtain ⟨g, hinv, hget⟩ := h.get_eq
    rw [h.data_eq] at hd ⊢
    obtain ⟨u', hu', hat⟩ := decodes (f y) hat hd
    refine ⟨u', ?_, hat⟩
    rw [hget, hu', Prod.map_apply, hinv, id]

variable {γ δ : Type} [Wire γ] [Wire δ]

/-- A value made of two fields. -/
theorem Converts.two {f : ε → α × β} (mk : α → β → ε)
    (hput : ∀ y, put y = put (f y).1 ++ put (f y).2)
    (hget : ∀ u : Unmarshall, get u =
      let (x, u) := get u
      let (y, u) := get u
      (mk x y, u)) (hinv : ∀ y, mk (f y).1 (f y).2 = y) : Converts f :=
  ⟨fun y => congrArg bytesOf (hput y), fun p => mk p.1 p.2, hinv, hget⟩

/-- A value made of three fields. -/
theorem Converts.three {f : ε → α × β × γ} (mk : α → β → γ → ε)
    (hput : ∀ y, put y = put (f y).1 ++ put (f y).2.1 ++ put (f y).2.2)
    (hget : ∀ u : Unmarshall, get u =
      let (x, u) := get u
      let (y, u) := get u
      let (z, u) := get u
      (mk x y z, u)) (hinv : ∀ y, mk (f y).1 (f y).2.1 (f y).2.2 = y) : Converts f :=
  ⟨fun y => congrArg bytesOf ((hput y).trans (List.append_assoc ..)),
    fun p => mk p.1 p.2.1 p.2.2, hinv, hget⟩

/-- A value made of four fields. -/
theorem Converts.four {f : ε → α × β × γ × δ} (mk : α → β → γ → δ → ε)
    (hput : ∀ y, put y = put (f y).1 ++ put (f y).2.1 ++ put (f y).2.2.1 ++ put (f y).2.2.2)
    (hget : ∀ u : Unmarshall, get u =
      let (x, u) := get u
      let (y, u) := get u
      let (z, u) := get u
      let (w, u) := get u
      (mk x y z w, u)) (hinv : ∀ y, mk (f y).1 (f y).2.1 (f y).2.2.1 (f y).2.2.2 = y) :
    Converts f := by
  refine ⟨fun y => congrArg bytesOf ?_, fun p => mk p.1 p.2.1 p.2.2.1 p.2.2.2, hinv, hget⟩
  rw [hput, List.append_assoc, List.append_assoc]
  rfl

end Parts

theorem converts_char : Converts Int8.toUInt8 :=
  ⟨fun _ => rfl, UInt8.toInt8, fun _ => rfl, fun _ => rfl⟩

theorem converts_short : Converts Int16.toUInt16 :=
  ⟨fun _ => rfl, UInt16.toInt16, fun _ => rfl, fun _ => rfl⟩

theorem converts_int : Converts Int32.toUInt32 :=
  ⟨fun _ => rfl, UInt32.toInt32, fun _ => rfl, fun _ => rfl⟩

instance : LawfulWire Int32 := converts_int.lawful

theorem converts_ull : Converts fun x : UInt64 => ((x >>> 32).toUInt32, x.toUInt32) :=
  .two doubleWord (fun _ => rfl) (fun _ => rfl) doubleWord_words

/-- A length below the largest `int` is read as it was. -/
theorem toNat_ofNat_length {n m : ℕ} (hle : n ≤ m) (hm : m < intLimit) :
    (UInt32.ofNat n).toNat = n := by
  unfold intLimit at hm
  refine UInt32.toNat_ofNat_of_lt' ?_
  show n < 4294967296
  omega

/-- The bytes of a string. -/
theorem data_str (s : Str) : data s = data (UInt32.ofNat s.data.length) ++ s.data := by
  show bytesOf (put (UInt32.ofNat s.data.length) ++ [.rawbytes s.data]) = _
  rw [bytesOf_append]
  exact congrArg _ (List.append_nil _)

instance : LawfulWire Str where
  data_pos _ := data_pos_of_field (α := UInt32) rfl
  decodes s := by
    intro u b k h hd
    rw [data_str] at hd ⊢
    obtain ⟨u₁, hn, hat, hd⟩ := h.get (decodes _) hd
    have hlen : (UInt32.ofNat s.data.length).toNat = s.data.length :=
      toNat_ofNat_length (Nat.le_of_add_left_le (end_le_length hat.le hd)) h.small
    have hok := hat.ok
    obtain ⟨u₂, hs, hat⟩ := hat.rawbytes hd
    rw [List.length_append, ← Nat.add_assoc]
    refine ⟨u₂, ?_, hat⟩
    rw [get_str, hn]
    dsimp only
    rw [if_pos hok, hlen, hs]

section Containers

variable {α β : Type} [Wire α] [LawfulWire α] [Wire β] [LawfulWire β]

/-- The bytes of the writes for a list. -/
theorem bytesOf_flatMap {ι : Type} (f : ι → List Chunk) (l : List ι) :
    bytesOf (l.flatMap f) = l.flatMap fun x => bytesOf (f x) := by
  unfold bytesOf
  exact List.flatMap_assoc

/-- Lists of non-empty pieces are at least as long as they have pieces. -/
theorem length_le_flatMap {ι : Type} {f : ι → Bytes} {l : List ι} (h : ∀ x, 0 < (f x).length) :
    l.length ≤ (l.flatMap f).length := by
  induction l with
  | nil => exact Nat.zero_le _
  | cons x l ih =>
    have hx := h x
    rw [List.flatMap_cons, List.length_append, List.length_cons]
    omega

/-- The elements of a vector are read one after the other. -/
theorem At.getLoop {u : Unmarshall} {b : Bytes} {k : ℕ} (v : List α) (h : At u b k)
    (hd : v.flatMap data <+: b.drop k) :
    ∃ u', getLoop v.length u = (v, u') ∧ At u' b (k + (v.flatMap data).length) := by
  induction v generalizing u k with
  | nil => exact ⟨u, rfl, h⟩
  | cons z v ih =>
    obtain ⟨u₁, hz, hat, hd⟩ := h.get (decodes z) hd
    obtain ⟨u₂, hv, hat⟩ := ih hat hd
    rw [List.flatMap_cons, List.length_append, ← Nat.add_assoc]
    refine ⟨u₂, ?_, hat⟩
    rw [List.length_cons, Rpc.getLoop, hz]
    dsimp only
    rw [hv]

omit [LawfulWire α] in
/-- The bytes of a vector. -/
theorem data_vector (v : List α) :
    data v = data (UInt32.ofNat v.length) ++ v.flatMap data := by
  show bytesOf (put (UInt32.ofNat v.length) ++ v.flatMap put) = _
  rw [bytesOf_append, bytesOf_flatMap]
  rfl

instance : LawfulWire (List α) where
  data_pos _ := data_pos_of_field (α := UInt32) rfl
  decodes v := by
    intro u b k h hd
    rw [data_vector] at hd ⊢
    obtain ⟨u₁, hn, hat, hd⟩ := h.get (decodes _) hd
    have hlen : (UInt32.ofNat v.length).toNat = v.length :=
      toNat_ofNat_length ((length_le_flatMap data_pos).trans
        (Nat.le_of_add_left_le (end_le_length hat.le hd))) h.small
    obtain ⟨u₂, hv, hat⟩ := hat.getLoop v hd
    rw [List.length_append, ← Nat.add_assoc]
    refine ⟨u₂, ?_, hat⟩
    rw [get_vector, hn]
    dsimp only
    rw [hlen, hv]

/-- The entries of a map are read and assigned one after the other. -/
theorem At.getMapLoop [LinearOrder α] {u : Unmarshall} {b : Bytes} {k : ℕ} (d : StdMap α β)
    (es : List (α × β)) (h : At u b k)
    (hd : es.flatMap (fun e => data e.1 ++ data e.2) <+: b.drop k) :
    ∃ u', getMapLoop es.length d u = (es.foldl (fun d e => d.insert e.1 e.2) d, u') ∧
      At u' b (k + (es.flatMap fun e => data e.1 ++ data e.2).length) := by
  induction es generalizing u k d with
  | nil => exact ⟨u, rfl, h⟩
  | cons e es ih =>
    rw [List.flatMap_cons, List.append_assoc] at hd ⊢
    obtain ⟨u₁, h₁, hat, hd⟩ := h.get (decodes e.1) hd
    obtain ⟨u₂, h₂, hat, hd⟩ := hat.get (decodes e.2) hd
    obtain ⟨u₃, hes, hat⟩ := ih (d.insert e.1 e.2) hat hd
    rw [List.length_append, List.length_append, ← Nat.add_assoc, ← Nat.add_assoc]
    refine ⟨u₃, ?_, hat⟩
    rw [List.length_cons, Rpc.getMapLoop, h₁]
    dsimp only
    rw [h₂]
    dsimp only
    rw [hes]
    rfl

omit [LawfulWire α] [LawfulWire β] in
/-- The bytes of a map. -/
theorem data_map [LinearOrder α] (d : StdMap α β) : data d =
    data (UInt32.ofNat d.entries.length) ++ d.entries.flatMap fun e => data e.1 ++ data e.2 := by
  show bytesOf (put (UInt32.ofNat d.entries.length) ++ d.entries.flatMap _) = _
  rw [bytesOf_append, bytesOf_flatMap]
  exact congrArg _ (congrArg (d.entries.flatMap ·) (funext fun e => bytesOf_append ..))

omit [LawfulWire β] in
/-- There is at least one byte to an entry of a map. -/
theorem data_entry_pos (e : α × β) : 0 < (data e.1 ++ data e.2).length := by
  have he := data_pos e.1
  rw [List.length_append]
  omega

instance [LinearOrder α] : LawfulWire (StdMap α β) where
  data_pos _ := data_pos_of_field (α := UInt32) rfl
  decodes d := by
    intro u b k h hd
    rw [data_map] at hd ⊢
    obtain ⟨u₁, hn, hat, hd⟩ := h.get (decodes _) hd
    have hlen : (UInt32.ofNat d.entries.length).toNat = d.entries.length :=
      toNat_ofNat_length ((length_le_flatMap data_entry_pos).trans
        (Nat.le_of_add_left_le (end_le_length hat.le hd))) h.small
    obtain ⟨u₂, hes, hat⟩ := hat.getMapLoop .empty d.entries hd
    rw [List.length_append, ← Nat.add_assoc]
    refine ⟨u₂, ?_, hat⟩
    rw [get_map, hn]
    dsimp only
    rw [hlen, hes, d.foldl_insert_entries]

end Containers

/-! The structs are written and read as their fields. -/

theorem PropT.converts : Converts fun a : PropT => (a.n, a.m) :=
  .two PropT.mk (fun _ => rfl) (fun _ => rfl) fun _ => rfl

theorem PrepareArg.converts : Converts fun a : PrepareArg => (a.inst, a.n) :=
  .two PrepareArg.mk (fun _ => rfl) (fun _ => rfl) fun _ => rfl

theorem PrepareRes.converts :
    Converts fun r : PrepareRes => (r.oldinstance, r.accept, r.n_a, r.v_a) :=
  .four PrepareRes.mk (fun _ => rfl) (fun _ => rfl) fun _ => rfl

theorem AcceptArg.converts : Converts fun a : AcceptArg => (a.inst, a.n, a.v) :=
  .three AcceptArg.mk (fun _ => rfl) (fun _ => rfl) fun _ => rfl

theorem DecideArg.converts : Converts fun a : DecideArg => (a.inst, a.v) :=
  .two DecideArg.mk (fun _ => rfl) (fun _ => rfl) fun _ => rfl

theorem Attr.converts : Converts fun a : Attr => (a.atime, a.mtime, a.ctime, a.size) :=
  .four Attr.mk (fun _ => rfl) (fun _ => rfl) fun _ => rfl

theorem Viewstamp.converts : Converts fun v : Viewstamp => (v.vid, v.seqno) :=
  .two Viewstamp.mk (fun _ => rfl) (fun _ => rfl) fun _ => rfl

theorem TransferRes.converts : Converts fun r : TransferRes => (r.state, r.last) :=
  .two TransferRes.mk (fun _ => rfl) (fun _ => rfl) fun _ => rfl

theorem JoinRes.converts : Converts JoinRes.log :=
  ⟨fun _ => rfl, JoinRes.mk, fun _ => rfl, fun _ => rfl⟩

/-! ## All types -/

/-- A property that the built-in types have and that carries over to what is made of them. -/
structure Closed (C : (α : Type) → [Wire α] → Prop) : Prop where
  /-- `bool`. -/
  bool : C Bool
  /-- `unsigned char`. -/
  uchar : C UInt8
  /-- `unsigned short`. -/
  ushort : C UInt16
  /-- `unsigned int`. -/
  uint : C UInt32
  /-- `std::string`. -/
  string : C Str
  /-- `std::vector`. -/
  vector : ∀ {α : Type} [Wire α], C α → C (List α)
  /-- `std::map`. -/
  map : ∀ {α β : Type} [LinearOrder α] [Wire α] [Wire β], C α → C β → C (StdMap α β)
  /-- Two fields. -/
  pair : ∀ {α β : Type} [Wire α] [Wire β], C α → C β → C (α × β)
  /-- A type that is converted. -/
  convert : ∀ {α ε : Type} [Wire α] [Wire ε] {f : ε → α}, Converts f → C α → C ε

namespace Closed

variable {C : (α : Type) → [Wire α] → Prop} (h : Closed C)

include h

/-- Every key type has the property. -/
theorem key (k : Key) : C k.interp := by
  induction k with
  | bool => exact h.bool
  | char => exact h.convert converts_char h.uchar
  | uchar => exact h.uchar
  | short => exact h.convert converts_short h.ushort
  | ushort => exact h.ushort
  | int => exact h.convert converts_int h.uint
  | uint => exact h.uint
  | ull => exact h.convert converts_ull (h.pair h.uint h.uint)
  | string => exact h.string
  | vector k ih => exact h.vector ih
  | map k v ihk ihv => exact h.map ihk ihv

/-- Every type has the property. -/
theorem ty (t : Ty) : C t.interp := by
  have hprop : C PropT := h.convert PropT.converts (h.pair h.uint h.string)
  have hstamp : C Viewstamp := h.convert Viewstamp.converts (h.pair h.uint h.uint)
  induction t with
  | key k => exact h.key k
  | vector t ih => exact h.vector ih
  | map k t ih => exact h.map (h.key k) ih
  | propT => exact hprop
  | prepareArg => exact h.convert PrepareArg.converts (h.pair h.uint hprop)
  | prepareRes =>
    exact h.convert PrepareRes.converts (h.pair h.bool (h.pair h.bool (h.pair hprop h.string)))
  | acceptArg => exact h.convert AcceptArg.converts (h.pair h.uint (h.pair hprop h.string))
  | decideArg => exact h.convert DecideArg.converts (h.pair h.uint h.string)
  | attr =>
    exact h.convert Attr.converts (h.pair h.uint (h.pair h.uint (h.pair h.uint h.uint)))
  | viewstamp => exact hstamp
  | transferRes => exact h.convert TransferRes.converts (h.pair h.string hstamp)
  | joinRes => exact h.convert JoinRes.converts h.string

end Closed

/-- The operators of every type match. -/
instance Ty.lawful (t : Ty) : LawfulWire t.interp :=
  Closed.ty (C := fun α _ => LawfulWire α)
    { bool := inferInstance
      uchar := inferInstance
      ushort := inferInstance
      uint := inferInstance
      string := inferInstance
      vector := fun _ => inferInstance
      map := fun _ _ => inferInstance
      pair := fun _ _ => inferInstance
      convert := fun h _ => h.lawful } t

end SimpleDfs.Rpc
