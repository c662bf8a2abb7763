import Mathlib.Data.Nat.Bitwise
import Mathlib.Tactic.Ring

/-!
# Words as bytes, the most significant byte first

Words are taken apart by shifting and masking, and put together again by shifting and joining. A
byte that is read as a signed character and then widened comes back with its sign extended
(`widen`); masking takes the extension away again. `word_byte` and its like say that a word is put
together from the bytes that it was taken apart into.
-/

namespace BigEndian

/-- The byte of a word that starts at bit `k`. -/
def byte (x k : UInt32) : UInt8 := ((x >>> k) &&& 0xff).toUInt8

/-- A signed character, widened to an unsigned word. -/
def widen (c : UInt8) : UInt32 := c.toInt8.toInt32.toUInt32

/-- The word of four widened characters. -/
def word (b₀ b₁ b₂ b₃ : UInt32) : UInt32 :=
  (b₀ &&& 0xff) <<< 24 ||| (b₁ &&& 0xff) <<< 16 ||| (b₂ &&& 0xff) <<< 8 ||| (b₃ &&& 0xff)

/-- The half word of two widened characters. -/
def halfWord (b₀ b₁ : UInt32) : UInt16 := ((b₀ &&& 0xff) <<< 8 ||| (b₁ &&& 0xff)).toUInt16

/-- The double word of two words. -/
def doubleWord (h l : UInt32) : UInt64 := l.toUInt64 ||| h.toUInt64 <<< 32

/-- A number with a low part below it. -/
theorem shiftLeft_or {a b k : ℕ} (h : b < 2 ^ k) : a <<< k ||| b = a * 2 ^ k + b := by
  rw [← Nat.shiftLeft_add_eq_or_of_lt h, Nat.shiftLeft_eq]

/-- Four bytes joined. -/
theorem join_four {a b c d : ℕ} (hb : b < 256) (hc : c < 256) (hd : d < 256) :
    a <<< 24 ||| b <<< 16 ||| c <<< 8 ||| d = a * 16777216 + b * 65536 + c * 256 + d := by
  have h₁ : c <<< 8 ||| d = c * 256 + d := shiftLeft_or (by omega)
  have h₂ : b <<< 16 ||| (c <<< 8 ||| d) = b * 65536 + (c * 256 + d) := by
    rw [h₁]
    exact shiftLeft_or (by omega)
  have h₃ : a <<< 24 ||| (b <<< 16 ||| (c <<< 8 ||| d)) =
      a * 16777216 + (b * 65536 + (c * 256 + d)) := by
    rw [h₂]
    exact shiftLeft_or (by omega)
  rw [Nat.or_assoc, Nat.or_assoc, h₃]
  omega

/-- The low byte of a widened character is the character. -/
theorem toNat_widen_and (c : UInt8) : (widen c &&& 0xff).toNat = c.toNat := by
  have hmask : (widen c &&& 0xff).toNat = (widen c).toNat % 256 := by
    rw [UInt32.toNat_and]
    exact Nat.and_two_pow_sub_one_eq_mod _ 8
  have hwiden : (widen c).toNat = (BitVec.signExtend 32 c.toBitVec).toNat := rfl
  rw [hmask, hwiden, BitVec.toNat_signExtend]
  have hset : (BitVec.setWidth 32 c.toBitVec).toNat = c.toNat := by
    rw [BitVec.toNat_setWidth]
    exact Nat.mod_eq_of_lt (by have := c.toNat_lt; omega)
  have := c.toNat_lt
  rw [hset]
  split_ifs <;> omega

/-- A character is what is left of a widened one. -/
theorem toUInt8_widen (c : UInt8) : (widen c).toUInt8 = c := by
  rw [← UInt8.toNat_inj, UInt32.toNat_toUInt8, ← toNat_widen_and c, UInt32.toNat_and]
  exact (Nat.and_two_pow_sub_one_eq_mod _ 8).symm

/-- The value of a byte of a word. -/
theorem toNat_byte (x : UInt32) {k : ℕ} (hk : k < 32) :
    (byte x (UInt32.ofNat k)).toNat = x.toNat / 2 ^ k % 256 := by
  have hk' : (UInt32.ofNat k).toNat = k := UInt32.toNat_ofNat_of_lt' (by
    show k < 4294967296
    omega)
  unfold byte
  rw [UInt32.toNat_toUInt8, UInt32.toNat_and, UInt32.toNat_shiftRight, hk', Nat.mod_eq_of_lt hk,
    Nat.shiftRight_eq_div_pow]
  have hmask : x.toNat / 2 ^ k &&& (0xff : UInt32).toNat = x.toNat / 2 ^ k % 256 :=
    Nat.and_two_pow_sub_one_eq_mod _ 8
  rw [hmask]
  omega

/-- A word is put together from its bytes. -/
theorem word_byte (x : UInt32) : word (widen (byte x 24)) (widen (byte x 16)) (widen (byte x 8))
    (widen (byte x 0)) = x := by
  have h₀ : (byte x 24).toNat = x.toNat / 16777216 % 256 := toNat_byte x (by decide)
  have h₁ : (byte x 16).toNat = x.toNat / 65536 % 256 := toNat_byte x (by decide)
  have h₂ : (byte x 8).toNat = x.toNat / 256 % 256 := toNat_byte x (by decide)
  have h₃ : (byte x 0).toNat = x.toNat / 1 % 256 := toNat_byte x (by decide)
  have hlt := x.toNat_lt
  have hshift : ∀ (b : UInt8) (k : UInt32), k.toNat < 32 → b.toNat * 2 ^ k.toNat < 4294967296 →
      ((widen b &&& 0xff) <<< k).toNat = b.toNat <<< k.toNat := by
    intro b k hk hb
    rw [UInt32.toNat_shiftLeft, toNat_widen_and, Nat.mod_eq_of_lt hk]
    exact Nat.mod_eq_of_lt (by rw [Nat.shiftLeft_eq]; exact hb)
  have e₀ := hshift (byte x 24) 24 (by decide) (by
    show _ * 16777216 < _
    omega)
  have e₁ := hshift (byte x 16) 16 (by decide) (by
    show _ * 65536 < _
    omega)
  have e₂ := hshift (byte x 8) 8 (by decide) (by
    show _ * 256 < _
    omega)
  rw [← UInt32.toNat_inj]
  unfold word
  rw [UInt32.toNat_or, UInt32.toNat_or, UInt32.toNat_or, e₀, e₁, e₂, toNat_widen_and]
  have hjoin := join_four (a := (byte x 24).toNat) (b := (byte x 16).toNat) (c := (byte x 8).toNat)
    (d := (byte x 0).toNat) (by omega) (by omega) (by omega)
  refine hjoin.trans ?_
  omega

/-- A half word is put together from its bytes. -/
theorem halfWord_byte (x : UInt16) :
    halfWord (widen (byte x.toUInt32 8)) (widen (byte x.toUInt32 0)) = x := by
  have hx : x.toUInt32.toNat = x.toNat := UInt16.toNat_toUInt32 x
  have h₀ : (byte x.toUInt32 8).toNat = x.toUInt32.toNat / 256 % 256 := toNat_byte _ (by decide)
  have h₁ : (byte x.toUInt32 0).toNat = x.toUInt32.toNat / 1 % 256 := toNat_byte _ (by decide)
  have hlt := x.toNat_lt
  have hshift : ((widen (byte x.toUInt32 8) &&& 0xff) <<< 8).toNat =
      (byte x.toUInt32 8).toNat <<< 8 := by
    rw [UInt32.toNat_shiftLeft, toNat_widen_and]
    refine Nat.mod_eq_of_lt ?_
    show (byte x.toUInt32 8).toNat <<< 8 < 4294967296
    rw [Nat.shiftLeft_eq]
    omega
  rw [← UInt16.toNat_inj]
  unfold halfWord
  rw [UInt32.toNat_toUInt16, UInt32.toNat_or, hshift, toNat_widen_and]
  have hjoin : (byte x.toUInt32 8).toNat <<< 8 ||| (byte x.toUInt32 0).toNat =
      (byte x.toUInt32 8).toNat * 256 + (byte x.toUInt32 0).toNat := shiftLeft_or (by omega)
  rw [hjoin]
  omega

/-- A double word is put together from its words. -/
theorem doubleWord_words (x : UInt64) : doubleWord (x >>> 32).toUInt32 x.toUInt32 = x := by
  have hlt := x.toNat_lt
  have hhigh : ((x >>> 32).toUInt32.toUInt64 <<< 32).toNat = (x.toNat / 4294967296) <<< 32 := by
    rw [UInt64.toNat_shiftLeft, UInt32.toNat_toUInt64, UInt64.toNat_toUInt32,
      UInt64.toNat_shiftRight]
    show (x.toNat >>> 32 % 4294967296) <<< 32 % 18446744073709551616 = _
    rw [Nat.shiftRight_eq_div_pow, Nat.shiftLeft_eq, Nat.shiftLeft_eq]
    omega
  rw [← UInt64.toNat_inj]
  unfold doubleWord
  rw [UInt64.toNat_or, hhigh, UInt32.toNat_toUInt64, UInt64.toNat_toUInt32, Nat.or_comm]
  have hjoin : (x.toNat / 4294967296) <<< 32 ||| x.toNat % 2 ^ 32 =
      x.toNat / 4294967296 * 4294967296 + x.toNat % 2 ^ 32 := shiftLeft_or (by omega)
  rw [hjoin]
  omega

end BigEndian
