import ExtentFs.Base.Bytes

namespace Base.Bytes

/-- A part of the given length, laid over the storage from an address on. -/
def paste (m : Bytes) (a n : Nat) (part : Bytes) : Bytes :=
  fun x => if a ≤ x ∧ x < a + n then part (x - a) else m x

variable {m m' part : Bytes} {a b n x : Nat}

theorem paste_inside {i : Nat} (inside : i < n) : m.paste a n part (a + i) = part i := by
  unfold paste
  rw [if_pos (by omega), Nat.add_sub_cancel_left]

theorem paste_outside (outside : x < a ∨ a + n ≤ x) : m.paste a n part x = m x := by
  unfold paste
  rw [if_neg (by omega)]

section Same

/-! Storing what is there changes nothing. -/

theorem paste_self (same : ∀ i < n, part i = m (a + i)) : m.paste a n part = m := by
  funext x
  by_cases inside : a ≤ x ∧ x < a + n
  · obtain ⟨i, rfl⟩ := Nat.exists_eq_add_of_le inside.1
    rw [paste_inside (by omega), same i (by omega)]
  · exact paste_outside (by omega)

theorem store_self {bytes : List Byte} (same : ∀ i (bound : i < bytes.length), bytes[i] = m (a + i)) :
    m.store a bytes = m := by
  funext x
  by_cases inside : a ≤ x ∧ x < a + bytes.length
  · obtain ⟨i, rfl⟩ := Nat.exists_eq_add_of_le inside.1
    rw [store_inside (by omega), same i (by omega)]
  · exact store_outside (by omega)

theorem bytes32_word32 : bytes32 (m.word32 a) = [m a, m (a + 1), m (a + 2), m (a + 3)] := by
  have byte {v w : Byte} (same : ∀ i, i < 8 → v.getLsbD i = w.getLsbD i) : v = w :=
    BitVec.eq_of_getLsbD_eq fun i bound => same i bound
  simp only [bytes32, List.cons.injEq, and_true]
  refine ⟨byte fun i bound => ?_, byte fun i bound => ?_, byte fun i bound => ?_, byte fun i bound => ?_⟩
  all_goals simp only [word32, BitVec.getLsbD_append, BitVec.getLsbD_extractLsb']
  all_goals grind

theorem byte_of_word32 {m' : Bytes} (same : m.word32 a = m'.word32 a) {i : Nat} (bound : i < 4) :
    m (a + i) = m' (a + i) := by
  have bytes := congrArg bytes32 same
  simp only [bytes32_word32, List.cons.injEq, and_true] at bytes
  obtain ⟨first, second, third, fourth⟩ := bytes
  rcases (by omega : i = 0 ∨ i = 1 ∨ i = 2 ∨ i = 3) with rfl | rfl | rfl | rfl
  · exact first
  · exact second
  · exact third
  · exact fourth

theorem set32_word32 : m.set32 a (m.word32 a) = m := by
  refine store_self fun i bound => ?_
  simp only [bytes32_word32, List.length_cons, List.length_nil] at bound ⊢
  rcases (by omega : i = 0 ∨ i = 1 ∨ i = 2 ∨ i = 3) with rfl | rfl | rfl | rfl
  all_goals rfl

theorem set64_halves {v : BitVec 64} :
    m.set64 a v = (m.set32 a (v.extractLsb' 0 32)).set32 (a + 4) (v.extractLsb' 32 32) := by
  funext x
  have low : (bytes32 (v.extractLsb' 0 32)).length = 4 := rfl
  have high : (bytes32 (v.extractLsb' 32 32)).length = 4 := rfl
  simp only [set64, set32, store, List.length_append, low, high]
  by_cases second : a + 4 ≤ x ∧ x < a + 4 + 4
  · rw [if_pos (by omega), if_pos second, List.getD_append_right _ _ _ _ (by omega), low]
    congr 1
  · by_cases first : a ≤ x ∧ x < a + 4
    · rw [if_pos (by omega), if_neg second, if_pos first, List.getD_append _ _ _ _ (by omega)]
    · rw [if_neg (by omega), if_neg second, if_neg first]

theorem set64_word64 : m.set64 a (m.word64 a) = m := by
  have low : (m.word64 a).extractLsb' 0 32 = m.word32 a := by
    rw [word64, BitVec.extractLsb'_append_eq_right]
  have high : (m.word64 a).extractLsb' 32 32 = m.word32 (a + 4) := by
    rw [word64, BitVec.extractLsb'_append_eq_left]
  rw [set64_halves, low, high, set32_word32, set32_word32]

theorem set8_byte : m.set8 a (m a) = m := by
  refine store_self fun i bound => ?_
  obtain rfl : i = 0 := by simpa using bound
  rfl

end Same

end Base.Bytes
