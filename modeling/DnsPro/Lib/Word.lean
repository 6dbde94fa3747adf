import Mathlib.Data.Nat.Bitwise

/-!
# Bytes and big-endian words

The shift-and-mask expressions of C code over 8, 16 and 32 bit words, as arithmetic.
-/

namespace Word

set_option autoImplicit false

/-- A property of all bytes, checked on the 256 values. -/
theorem forall_byte {P : UInt8 → Prop} (h : ∀ n : Fin 256, P (UInt8.ofFin n)) (x : UInt8) : P x :=
  h x.toFin

theorem and_192_eq_192_iff (x : UInt8) : x &&& 0xC0 = 0xC0 ↔ 192 ≤ x.toNat :=
  forall_byte (P := fun x => x &&& 0xC0 = 0xC0 ↔ 192 ≤ x.toNat) (by decide +kernel) x

theorem and_192_eq_zero_iff (x : UInt8) : x &&& 0xC0 = 0 ↔ x.toNat < 64 :=
  forall_byte (P := fun x => x &&& 0xC0 = 0 ↔ x.toNat < 64) (by decide +kernel) x

theorem toNat_and_63 (x : UInt8) : (x &&& 0x3F).toNat = x.toNat % 64 :=
  forall_byte (P := fun x => (x &&& 0x3F).toNat = x.toNat % 64) (by decide +kernel) x

theorem shiftLeft_8_or (n : Nat) (x : UInt8) : n <<< 8 ||| x.toNat = n * 256 + x.toNat := by
  rw [← Nat.shiftLeft_add_eq_or_of_lt (i := 8) x.toNat_lt, Nat.shiftLeft_eq]

/-! ### Big-endian words -/

def bytes16 (v : UInt16) : List UInt8 := [.ofNat (v.toNat / 2 ^ 8), .ofNat v.toNat]

def bytes32 (v : UInt32) : List UInt8 :=
  [.ofNat (v.toNat / 2 ^ 24), .ofNat (v.toNat / 2 ^ 16), .ofNat (v.toNat / 2 ^ 8), .ofNat v.toNat]

theorem toNat_ofNat_of_le {n : Nat} (h : n ≤ 65535) : (UInt16.ofNat n).toNat = n := by
  rw [UInt16.toNat_ofNat']
  exact Nat.mod_eq_of_lt (by omega)

@[simp] theorem length_bytes16 (v : UInt16) : (bytes16 v).length = 2 := rfl

@[simp] theorem length_bytes32 (v : UInt32) : (bytes32 v).length = 4 := rfl

theorem bytes16_eq_iff (v : UInt16) (hi lo : UInt8) :
    bytes16 v = [hi, lo] ↔ v.toNat = hi.toNat * 2 ^ 8 + lo.toNat := by
  have hv := v.toNat_lt
  have hhi := hi.toNat_lt
  have hlo := lo.toNat_lt
  simp only [bytes16, List.cons.injEq, and_true, ← UInt8.toNat_inj, UInt8.toNat_ofNat']
  omega

theorem bytes32_eq_iff (v : UInt32) (a b c d : UInt8) :
    bytes32 v = [a, b, c, d] ↔
      v.toNat = a.toNat * 2 ^ 24 + b.toNat * 2 ^ 16 + c.toNat * 2 ^ 8 + d.toNat := by
  have hv := v.toNat_lt
  have ha := a.toNat_lt
  have hb := b.toNat_lt
  have hc := c.toNat_lt
  have hd := d.toNat_lt
  simp only [bytes32, List.cons.injEq, and_true, ← UInt8.toNat_inj, UInt8.toNat_ofNat']
  omega

theorem bytes16_inj {v w : UInt16} : bytes16 v = bytes16 w ↔ v = w := by
  refine (bytes16_eq_iff v _ _).trans ?_
  rw [← (bytes16_eq_iff w _ _).mp rfl, UInt16.toNat_inj]

theorem bytes32_inj {v w : UInt32} : bytes32 v = bytes32 w ↔ v = w := by
  refine (bytes32_eq_iff v _ _ _ _).trans ?_
  rw [← (bytes32_eq_iff w _ _ _ _).mp rfl, UInt32.toNat_inj]

/-- Reading: shifting two bytes together is the inverse of `bytes16`. -/
theorem bytes16_shift_or (hi lo : UInt8) :
    bytes16 (hi.toUInt16 <<< 8 ||| lo.toUInt16) = [hi, lo] := by
  have hhi := hi.toNat_lt
  rw [bytes16_eq_iff]
  have h := shiftLeft_8_or hi.toNat lo
  simp only [Nat.shiftLeft_eq] at h
  simp only [UInt16.toNat_or, UInt16.toNat_shiftLeft, UInt8.toNat_toUInt16, Nat.shiftLeft_eq]
  rw [Nat.mod_eq_of_lt (by simp; omega)]
  exact h

theorem or_shifted_bytes (a : Nat) (b c d : UInt8) :
    a * 16777216 ||| b.toNat * 65536 ||| c.toNat * 256 ||| d.toNat =
      a * 16777216 + b.toNat * 65536 + c.toNat * 256 + d.toNat := by
  have e₁ : a * 16777216 + b.toNat * 65536 = (a * 256 + b.toNat) * 65536 := by
    simp only [Nat.add_mul, Nat.mul_assoc, Nat.reduceMul]
  have e₂ : (a * 256 + b.toNat) * 65536 + c.toNat * 256 =
      (a * 65536 + b.toNat * 256 + c.toNat) * 256 := by
    simp only [Nat.add_mul, Nat.mul_assoc, Nat.reduceMul]
  have hb : b.toNat * 65536 < 2 ^ 24 := Nat.mul_lt_mul_of_pos_right b.toNat_lt (by decide)
  have hc : c.toNat * 256 < 2 ^ 16 := Nat.mul_lt_mul_of_pos_right c.toNat_lt (by decide)
  have h₁ := Nat.shiftLeft_add_eq_or_of_lt hb a
  have h₂ := Nat.shiftLeft_add_eq_or_of_lt hc (a * 256 + b.toNat)
  have h₃ := shiftLeft_8_or (a * 65536 + b.toNat * 256 + c.toNat) d
  simp only [Nat.shiftLeft_eq, Nat.reducePow] at h₁ h₂ h₃
  rw [← h₁, e₁, ← h₂, e₂, h₃]

theorem bytes32_shift_or (a b c d : UInt8) :
    bytes32 (a.toUInt32 <<< 24 ||| b.toUInt32 <<< 16 ||| c.toUInt32 <<< 8 ||| d.toUInt32) =
      [a, b, c, d] := by
  have ha := a.toNat_lt
  have hb := b.toNat_lt
  have hc := c.toNat_lt
  rw [bytes32_eq_iff]
  simp only [UInt32.toNat_or, UInt32.toNat_shiftLeft, UInt8.toNat_toUInt32, Nat.shiftLeft_eq,
    UInt32.reduceToNat, Nat.reduceMod, Nat.reducePow] at ha hb hc ⊢
  rw [Nat.mod_eq_of_lt (by omega), Nat.mod_eq_of_lt (by omega), Nat.mod_eq_of_lt (by omega)]
  exact or_shifted_bytes a.toNat b c d

/-- Writing: masking the shifted bytes out of a word gives `bytes16`. -/
theorem shift_and_eq_bytes16 (v : UInt16) :
    [((v >>> 8) &&& 0xFF).toUInt8, (v &&& 0xFF).toUInt8] = bytes16 v := by
  have mask (n : Nat) : n &&& 255 = n % 2 ^ 8 := Nat.and_two_pow_sub_one_eq_mod n 8
  simp [bytes16, ← UInt8.toNat_inj, Nat.shiftRight_eq_div_pow, mask]

theorem shift_and_eq_bytes32 (v : UInt32) :
    [((v >>> 24) &&& 0xFF).toUInt8, ((v >>> 16) &&& 0xFF).toUInt8,
      ((v >>> 8) &&& 0xFF).toUInt8, (v &&& 0xFF).toUInt8] = bytes32 v := by
  have mask (n : Nat) : n &&& 255 = n % 2 ^ 8 := Nat.and_two_pow_sub_one_eq_mod n 8
  simp [bytes32, ← UInt8.toNat_inj, Nat.shiftRight_eq_div_pow, mask]

end Word
