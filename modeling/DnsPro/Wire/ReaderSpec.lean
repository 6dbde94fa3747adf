import DnsPro.Parser
import DnsPro.Wire.Grammar

/-!
# The primitive readers and the header against the grammar

Each reader succeeds exactly where its field stands in the buffer, and with that value.
-/

namespace DnsPro.Wire

open Packet DnsPro.Parser Layout Word

set_option autoImplicit false

/-- `if (Status s = …; s != Status::OK) return s;` on the successful side. -/
theorem bind_eq_ok_iff {ε α β : Type} {x : Except ε α} {f : α → Except ε β} {r : β} :
    (x >>= f) = .ok r ↔ ∃ a, x = .ok a ∧ f a = .ok r := by
  cases x <;> simp [bind, Except.bind]

section Readers
variable {b : Buffer} {o e : Nat}

theorem bytesFrom_eq_take {n : Nat} (h : o + n ≤ b.length) :
    bytesFrom b o n = (b.drop o).take n := by
  apply List.ext_getElem
  · simp only [bytesFrom, List.length_map, List.length_range, List.length_take, List.length_drop]
    omega
  · intro i hi _
    have hin : o + i < b.length := by
      simp only [bytesFrom, List.length_map, List.length_range] at hi
      omega
    simp [bytesFrom, byteAt, List.getD_eq_getElem?_getD, hin]

@[simp] theorem length_bytesFrom (n : Nat) : (bytesFrom b o n).length = n := by
  simp [bytesFrom]

theorem sits_bytesFrom {n : Nat} (h : o + n ≤ b.length) : Sits b o (bytesFrom b o n) := by
  rw [bytesFrom_eq_take h]
  exact List.take_prefix _ _

theorem sits_iff_bytesFrom {xs : List UInt8} (hne : xs ≠ []) :
    Sits b o xs ↔ o + xs.length ≤ b.length ∧ bytesFrom b o xs.length = xs := by
  constructor
  · intro h
    have hle := h.end_le hne
    refine ⟨hle, ?_⟩
    rw [bytesFrom_eq_take hle]
    exact sits_iff_take.mp h
  · intro ⟨hle, heq⟩
    rw [← heq]
    exact sits_bytesFrom (by simpa using hle)

theorem sits_singleton_iff_byteAt {x : UInt8} :
    Sits b o [x] ↔ o < b.length ∧ byteAt b o = x := by
  rw [sits_iff_bytesFrom (by simp), Nat.lt_iff_add_one_le]
  simp [bytesFrom]

/-- The common shape of the readers: one bounds check in front of the value. -/
theorem guarded_eq_ok_iff {α : Type} {n : Nat} {x v : α} :
    (if o + n > b.length then .error .BUFFER_TOO_SMALL else .ok (x, o + n) :
      Except Status (α × Nat)) = .ok (v, e) ↔ (o + n ≤ b.length ∧ x = v) ∧ e = o + n := by
  split
  · constructor
    · intro h
      cases h
    · intro ⟨⟨hle, _⟩, _⟩
      omega
  · constructor
    · intro h
      cases h
      exact ⟨⟨by omega, rfl⟩, rfl⟩
    · rintro ⟨⟨_, rfl⟩, rfl⟩
      rfl

theorem readU16_eq_ok_iff {v : UInt16} :
    readU16 b o = .ok (v, e) ↔ Sits b o (bytes16 v) ∧ e = o + 2 := by
  have window : Sits b o (bytes16 v) ↔
      o + 2 ≤ b.length ∧ [byteAt b o, byteAt b (o + 1)] = bytes16 v :=
    sits_iff_bytesFrom (by simp [bytes16])
  unfold readU16
  rw [guarded_eq_ok_iff, window, ← bytes16_shift_or, bytes16_inj]

theorem readU32_eq_ok_iff {v : UInt32} :
    readU32 b o = .ok (v, e) ↔ Sits b o (bytes32 v) ∧ e = o + 4 := by
  have window : Sits b o (bytes32 v) ↔ o + 4 ≤ b.length ∧
      [byteAt b o, byteAt b (o + 1), byteAt b (o + 2), byteAt b (o + 3)] = bytes32 v :=
    sits_iff_bytesFrom (by simp [bytes32])
  unfold readU32
  rw [guarded_eq_ok_iff, window, ← bytes32_shift_or, bytes32_inj]

theorem readFlags_eq_ok_iff {x y : UInt8} :
    readFlags b o = .ok ((x, y), e) ↔ Sits b o [x, y] ∧ e = o + 2 := by
  have window : Sits b o [x, y] ↔ o + 2 ≤ b.length ∧ [byteAt b o, byteAt b (o + 1)] = [x, y] :=
    sits_iff_bytesFrom (by simp)
  unfold readFlags
  rw [guarded_eq_ok_iff, window]
  simp

/-! ### Header -/

theorem flagByte1_assignHeader (id : UInt16) (f1 f2 : UInt8) (qd an ns ar : UInt16) :
    flagByte1 (assignHeader id f1 f2 qd an ns ar) = f1 := by
  revert f1
  apply forall_byte
  simp only [flagByte1, assignHeader]
  decide +kernel

theorem flagByte2_assignHeader (id : UInt16) (f1 f2 : UInt8) (qd an ns ar : UInt16) :
    flagByte2 (assignHeader id f1 f2 qd an ns ar) = f2 := by
  revert f2
  apply forall_byte
  simp only [flagByte2, assignHeader]
  decide +kernel

/-- Unpacking the two flag bytes of a header gives back its flag fields. -/
theorem assignHeader_flagBytes (h : Header) :
    assignHeader h.id (flagByte1 h) (flagByte2 h) h.qdcount h.ancount h.nscount h.arcount = h := by
  have byte1 : ∀ (qr : BitVec 1) (opcode : BitVec 4) (aa tc rd : BitVec 1),
      let f : UInt8 := .ofNat (qr.toNat * 128 + opcode.toNat * 8 + aa.toNat * 4 + tc.toNat * 2 +
        rd.toNat)
      ((f >>> 7) &&& 0x1).toBitVec.setWidth 1 = qr ∧
        ((f >>> 3) &&& 0xF).toBitVec.setWidth 4 = opcode ∧
        ((f >>> 2) &&& 0x1).toBitVec.setWidth 1 = aa ∧
        ((f >>> 1) &&& 0x1).toBitVec.setWidth 1 = tc ∧
        (f &&& 0x1).toBitVec.setWidth 1 = rd := by decide +kernel
  have byte2 : ∀ (ra : BitVec 1) (z : BitVec 3) (rcode : BitVec 4),
      let f : UInt8 := .ofNat (ra.toNat * 128 + z.toNat * 16 + rcode.toNat)
      ((f >>> 7) &&& 0x1).toBitVec.setWidth 1 = ra ∧
        ((f >>> 4) &&& 0x7).toBitVec.setWidth 3 = z ∧
        (f &&& 0xF).toBitVec.setWidth 4 = rcode := by decide +kernel
  obtain ⟨hqr, hopcode, haa, htc, hrd⟩ := byte1 h.qr h.opcode h.aa h.tc h.rd
  obtain ⟨hra, hz, hrcode⟩ := byte2 h.ra h.z h.rcode
  simp only [assignHeader, flagByte1, flagByte2, hqr, hopcode, haa, htc, hrd, hra, hz, hrcode]

theorem parseHeader_eq_ok_iff {h : Header} :
    parseHeader b o = .ok (h, e) ↔ Sits b o (headerBytes h) ∧ e = o + 12 := by
  simp only [parseHeader, bind_eq_ok_iff, Prod.exists, readU16_eq_ok_iff, readFlags_eq_ok_iff,
    headerBytes, sits_append_iff]
  constructor
  · rintro ⟨id, _, ⟨hid, rfl⟩, f1, f2, _, ⟨hf, rfl⟩, qd, _, ⟨hqd, rfl⟩, an, _, ⟨han, rfl⟩,
      ns, _, ⟨hns, rfl⟩, ar, _, ⟨har, rfl⟩, heq⟩
    cases heq
    rw [flagByte1_assignHeader, flagByte2_assignHeader]
    exact ⟨⟨⟨⟨⟨⟨hid, hf⟩, hqd⟩, han⟩, hns⟩, har⟩, rfl⟩
  · rintro ⟨⟨⟨⟨⟨⟨hid, hf⟩, hqd⟩, han⟩, hns⟩, har⟩, rfl⟩
    refine ⟨h.id, _, ⟨hid, rfl⟩, flagByte1 h, flagByte2 h, _, ⟨hf, rfl⟩, h.qdcount, _, ⟨hqd, rfl⟩,
      h.ancount, _, ⟨han, rfl⟩, h.nscount, _, ⟨hns, rfl⟩, h.arcount, _, ⟨har, rfl⟩, ?_⟩
    rw [assignHeader_flagBytes]
    rfl

end Readers

end DnsPro.Wire
