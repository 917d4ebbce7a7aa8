import Mathlib.Data.List.GetD
import Mathlib.Tactic.Common

namespace Base

abbrev Byte := BitVec 8

abbrev Bytes := Nat → Byte

namespace Bytes

/-- The bytes of a list, laid over the storage from an address on. -/
def store (m : Bytes) (a : Nat) (bytes : List Byte) : Bytes :=
  fun x => if a ≤ x ∧ x < a + bytes.length then bytes.getD (x - a) 0 else m x

def fill (m : Bytes) (a length : Nat) (value : Byte) : Bytes :=
  fun x => if a ≤ x ∧ x < a + length then value else m x

/-- Words are stored with their least significant byte first. -/
def word32 (m : Bytes) (a : Nat) : BitVec 32 := m (a + 3) ++ m (a + 2) ++ m (a + 1) ++ m a

def word64 (m : Bytes) (a : Nat) : BitVec 64 := m.word32 (a + 4) ++ m.word32 a

def bytes32 (v : BitVec 32) : List Byte :=
  [v.extractLsb' 0 8, v.extractLsb' 8 8, v.extractLsb' 16 8, v.extractLsb' 24 8]

def set32 (m : Bytes) (a : Nat) (v : BitVec 32) : Bytes := m.store a (bytes32 v)

def set64 (m : Bytes) (a : Nat) (v : BitVec 64) : Bytes :=
  m.store a (bytes32 (v.extractLsb' 0 32) ++ bytes32 (v.extractLsb' 32 32))

def set8 (m : Bytes) (a : Nat) (v : Byte) : Bytes := m.store a [v]

variable {m m' : Bytes} {a x : Nat}

theorem store_outside {bytes : List Byte} (outside : x < a ∨ a + bytes.length ≤ x) :
    m.store a bytes x = m x := by
  unfold store
  rw [if_neg (by omega)]

theorem store_inside {bytes : List Byte} {i : Nat} (inside : i < bytes.length) :
    m.store a bytes (a + i) = bytes[i] := by
  unfold store
  rw [if_pos (by omega), Nat.add_sub_cancel_left, List.getD_eq_getElem _ _ inside]

theorem store_comm {b : Nat} {xs ys : List Byte} (apart : a + xs.length ≤ b ∨ b + ys.length ≤ a) :
    (m.store a xs).store b ys = (m.store b ys).store a xs := by
  funext x
  unfold store
  by_cases first : a ≤ x ∧ x < a + xs.length
  · rw [if_neg (by omega), if_pos first, if_pos first]
  · rw [if_neg first, if_neg first]

theorem fill_outside {length : Nat} {value : Byte} (outside : x < a ∨ a + length ≤ x) :
    m.fill a length value x = m x := by
  unfold fill
  rw [if_neg (by omega)]

theorem fill_inside {length : Nat} {value : Byte} (low : a ≤ x) (high : x < a + length) :
    m.fill a length value x = value := by
  unfold fill
  rw [if_pos ⟨low, high⟩]

theorem word32_congr {a' : Nat} (same : ∀ i, i < 4 → m (a + i) = m' (a' + i)) :
    m.word32 a = m'.word32 a' := by
  have s0 := same 0 (by omega)
  have s1 := same 1 (by omega)
  have s2 := same 2 (by omega)
  have s3 := same 3 (by omega)
  simp only [Nat.add_zero] at s0
  simp only [word32, s0, s1, s2, s3]

theorem word64_congr {a' : Nat} (same : ∀ i, i < 8 → m (a + i) = m' (a' + i)) :
    m.word64 a = m'.word64 a' := by
  have low : m.word32 a = m'.word32 a' := word32_congr fun i bound => same i (by omega)
  have high : m.word32 (a + 4) = m'.word32 (a' + 4) := word32_congr fun i bound => by
    have := same (4 + i) (by omega)
    rwa [← Nat.add_assoc, ← Nat.add_assoc] at this
  simp only [word64, low, high]

theorem word64_low : (m.word64 a).setWidth 8 = m a := by
  rw [word64, word32, word32]
  apply BitVec.eq_of_getLsbD_eq
  intro i bound
  simp only [BitVec.getLsbD_setWidth, BitVec.getLsbD_append]
  grind

theorem word32_of_bytes (v : BitVec 32) (h0 : m a = v.extractLsb' 0 8)
    (h1 : m (a + 1) = v.extractLsb' 8 8) (h2 : m (a + 2) = v.extractLsb' 16 8)
    (h3 : m (a + 3) = v.extractLsb' 24 8) : m.word32 a = v := by
  simp only [word32, h0, h1, h2, h3]
  apply BitVec.eq_of_getLsbD_eq
  intro i bound
  simp only [BitVec.getLsbD_append, BitVec.getLsbD_extractLsb']
  grind

@[simp] theorem word32_set32 (v : BitVec 32) : (m.set32 a v).word32 a = v := by
  apply word32_of_bytes
  · exact store_inside (i := 0) (by simp [bytes32])
  · exact store_inside (i := 1) (by simp [bytes32])
  · exact store_inside (i := 2) (by simp [bytes32])
  · exact store_inside (i := 3) (by simp [bytes32])

@[simp] theorem word64_set64 (v : BitVec 64) : (m.set64 a v).word64 a = v := by
  have length : (bytes32 (v.extractLsb' 0 32) ++ bytes32 (v.extractLsb' 32 32)).length = 8 := rfl
  have byte (i : Nat) (inside : i < (bytes32 (v.extractLsb' 0 32) ++
      bytes32 (v.extractLsb' 32 32)).length) : m.set64 a v (a + i) =
      (bytes32 (v.extractLsb' 0 32) ++ bytes32 (v.extractLsb' 32 32))[i] := store_inside inside
  have low : (m.set64 a v).word32 a = v.extractLsb' 0 32 :=
    word32_of_bytes _ (byte 0 (by omega)) (byte 1 (by omega)) (byte 2 (by omega)) (byte 3 (by omega))
  have high : (m.set64 a v).word32 (a + 4) = v.extractLsb' 32 32 :=
    word32_of_bytes _ (byte 4 (by omega)) (byte 5 (by omega)) (byte 6 (by omega)) (byte 7 (by omega))
  rw [word64, low, high]
  apply BitVec.eq_of_getLsbD_eq
  intro i bound
  simp only [BitVec.getLsbD_append, BitVec.getLsbD_extractLsb']
  grind

@[simp] theorem set8_self (v : Byte) : m.set8 a v a = v := store_inside (i := 0) (by simp)

section Disjoint

variable {b : Nat}

theorem word32_store {bytes : List Byte} (disjoint : b + 4 ≤ a ∨ a + bytes.length ≤ b) :
    (m.store a bytes).word32 b = m.word32 b :=
  word32_congr fun i bound => store_outside (by omega)

theorem word64_store {bytes : List Byte} (disjoint : b + 8 ≤ a ∨ a + bytes.length ≤ b) :
    (m.store a bytes).word64 b = m.word64 b :=
  word64_congr fun i bound => store_outside (by omega)

theorem set8_of_ne (v : Byte) (disjoint : x < a ∨ a + 1 ≤ x) : m.set8 a v x = m x :=
  store_outside disjoint

theorem set32_outside (v : BitVec 32) (disjoint : x < a ∨ a + 4 ≤ x) : m.set32 a v x = m x :=
  store_outside disjoint

theorem set64_outside (v : BitVec 64) (disjoint : x < a ∨ a + 8 ≤ x) : m.set64 a v x = m x :=
  store_outside disjoint

theorem word32_set8 (v : Byte) (disjoint : b + 4 ≤ a ∨ a + 1 ≤ b) :
    (m.set8 a v).word32 b = m.word32 b := word32_store disjoint

theorem word32_set32_of_disjoint (v : BitVec 32) (disjoint : b + 4 ≤ a ∨ a + 4 ≤ b) :
    (m.set32 a v).word32 b = m.word32 b := word32_store disjoint

theorem word32_set64 (v : BitVec 64) (disjoint : b + 4 ≤ a ∨ a + 8 ≤ b) :
    (m.set64 a v).word32 b = m.word32 b := word32_store disjoint

theorem word64_set8 (v : Byte) (disjoint : b + 8 ≤ a ∨ a + 1 ≤ b) :
    (m.set8 a v).word64 b = m.word64 b := word64_store disjoint

theorem word64_set32 (v : BitVec 32) (disjoint : b + 8 ≤ a ∨ a + 4 ≤ b) :
    (m.set32 a v).word64 b = m.word64 b := word64_store disjoint

theorem word64_set64_of_disjoint (v : BitVec 64) (disjoint : b + 8 ≤ a ∨ a + 8 ≤ b) :
    (m.set64 a v).word64 b = m.word64 b := word64_store disjoint

end Disjoint

end Bytes

end Base
