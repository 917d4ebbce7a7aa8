import ExtentFs.Model.Util

namespace ExtentFs

open Base

theorem checkBitUsage_ok {bitmap : Bitmap} {i : Nat} {used : Bool} :
    checkBitUsage bitmap i = .ok used ↔ i / 8 < bitmap.length ∧ used = bitmap.test i := by
  rw [checkBitUsage, guard_eq_ok, Except.ok.injEq]
  exact and_congr_right fun _ => eq_comm

theorem flipBit_ok {bitmap bitmap' : Bitmap} {i : Nat} :
    flipBit bitmap i = .ok bitmap' ↔ i / 8 < bitmap.length ∧ bitmap' = bitmap.flip i := by
  rw [flipBit, guard_eq_ok, Except.ok.injEq]
  exact and_congr_right fun _ => eq_comm

def countFlips (flipType : Nat) (free : Int) (count : Nat) : Int :=
  if flipType = 0 then free + count else free - count

theorem flipDataBits_ok {sb sb' : A1fsSuperblock} {bitmap bitmap' : Bitmap} {flipType : Nat}
    {l : List Nat} : flipDataBits sb bitmap flipType l = .ok (sb', bitmap') ↔
      (∀ i ∈ l, i / 8 < bitmap.length) ∧ bitmap' = bitmap.flipAll l ∧
        sb' = { sb with sbFreeBlocksCount := countFlips flipType sb.sbFreeBlocksCount l.length } := by
  induction l generalizing sb bitmap with
  | nil =>
    have none : countFlips flipType sb.sbFreeBlocksCount 0 = sb.sbFreeBlocksCount := by
      simp [countFlips]
    simp only [flipDataBits, List.length_nil, none]
    constructor
    · rintro ⟨⟩
      exact ⟨by simp, rfl, rfl⟩
    · rintro ⟨-, rfl, rfl⟩
      rfl
  | cons i l ih =>
    rw [flipDataBits, bind_eq_ok]
    constructor
    · rintro ⟨flipped, head, rest⟩
      obtain ⟨inside, rfl⟩ := flipBit_ok.mp head
      obtain ⟨insideRest, bits, counted⟩ := ih.mp rest
      refine ⟨?_, bits, ?_⟩
      · intro j member
        rcases List.mem_cons.mp member with rfl | member
        · exact inside
        · exact insideRest j member
      · rw [counted]
        simp only [countFlips, List.length_cons, A1fsSuperblock.mk.injEq, true_and, and_true]
        split <;> omega
    · rintro ⟨inside, rfl, rfl⟩
      refine ⟨bitmap.flip i, flipBit_ok.mpr ⟨inside i (by simp), rfl⟩, ih.mpr ⟨?_, rfl, ?_⟩⟩
      · intro j member
        exact inside j (by simp [member])
      · simp only [countFlips, List.length_cons, A1fsSuperblock.mk.injEq, true_and, and_true]
        split <;> omega

theorem flipDataBits_append {sb : A1fsSuperblock} {bitmap : Bitmap} {flipType : Nat} {l k : List Nat} :
    flipDataBits sb bitmap flipType (l ++ k) =
      flipDataBits sb bitmap flipType l >>= fun flipped => flipDataBits flipped.1 flipped.2 flipType k := by
  induction l generalizing sb bitmap with
  | nil => rfl
  | cons i l ih =>
    rw [List.cons_append, flipDataBits, flipDataBits, bind_assoc]
    congr 1
    funext flipped
    exact ih

theorem setBits_inode_ok {sb sb' : A1fsSuperblock} {bitmap bitmap' : Bitmap} {i flipType : Nat}
    {extentSize : Int} : setBits sb bitmap i .inode extentSize flipType = .ok (sb', bitmap') ↔
      i / 8 < bitmap.length ∧ bitmap' = bitmap.flip i ∧
        sb' = { sb with sbFreeInodesCount := countFlips flipType sb.sbFreeInodesCount 1 } := by
  simp only [setBits, bind_eq_ok, flipBit_ok, pure_eq_ok, Prod.mk.injEq, countFlips]
  constructor
  · rintro ⟨_, ⟨inside, rfl⟩, rfl, rfl⟩
    exact ⟨inside, rfl, rfl⟩
  · rintro ⟨inside, rfl, rfl⟩
    exact ⟨_, ⟨inside, rfl⟩, rfl, rfl⟩

theorem setBits_data_ok {sb sb' : A1fsSuperblock} {bitmap bitmap' : Bitmap} {i flipType : Nat}
    {extentSize : Int} : setBits sb bitmap i .data extentSize flipType = .ok (sb', bitmap') ↔
      (∀ j ∈ List.range' i extentSize.toNat, j / 8 < bitmap.length) ∧
        bitmap' = bitmap.flipAll (List.range' i extentSize.toNat) ∧
        sb' = { sb with
          sbFreeBlocksCount := countFlips flipType sb.sbFreeBlocksCount extentSize.toNat } := by
  rw [setBits, flipDataBits_ok, List.length_range']

theorem availableInode_spec {bitmap : Bitmap} {room i : Nat} {r : Int}
    (h : availableInode bitmap room i = .ok r) :
    (r = -1 ∧ ∀ j, i ≤ j → j < i + room → bitmap.test j = true) ∨
      ∃ j : Nat, r = j ∧ i ≤ j ∧ j < i + room ∧ bitmap.test j = false ∧ j / 8 < bitmap.length := by
  induction room generalizing i with
  | zero =>
    cases h
    exact .inl ⟨rfl, fun j low high => by omega⟩
  | succ room ih =>
    rw [availableInode, bind_eq_ok] at h
    obtain ⟨used, test, rest⟩ := h
    obtain ⟨inside, rfl⟩ := checkBitUsage_ok.mp test
    cases bit : bitmap.test i with
    | false =>
      simp only [bit, Bool.false_eq_true, if_false, Except.ok.injEq] at rest
      exact .inr ⟨i, rest.symm, le_refl _, by omega, bit, inside⟩
    | true =>
      simp only [bit, if_true] at rest
      rcases ih rest with ⟨none, full⟩ | ⟨j, found, low, high, clear, inside⟩
      · refine .inl ⟨none, fun j low high => ?_⟩
        by_cases first : j = i
        · exact first ▸ bit
        · exact full j (by omega) (by omega)
      · exact .inr ⟨j, found, by omega, by omega, clear, inside⟩

theorem getAvailableBit_inode {sb : A1fsSuperblock} {bitmap : Bitmap} {n r : Int}
    (h : getAvailableBit sb bitmap .inode n = .ok r) :
    r = -1 ∨ ∃ i : Nat, r = i ∧ (i : Int) < sb.sbInodesCount ∧ bitmap.test i = false ∧
      i / 8 < bitmap.length := by
  rw [getAvailableBit] at h
  split at h
  · cases h
    exact .inl rfl
  · split at h
    · cases h
      exact .inl rfl
    · rcases availableInode_spec h with ⟨none, -⟩ | ⟨i, found, -, below, clear, inside⟩
      · exact .inl none
      · exact .inr ⟨i, found, by omega, clear, inside⟩

theorem getAvailableBit_free {sb : A1fsSuperblock} {bitmap : Bitmap} {n : Int} {i : Nat}
    (h : getAvailableBit sb bitmap .inode n = .ok (i : Int)) :
    (i : Int) < sb.sbInodesCount ∧ bitmap.test i = false := by
  rcases getAvailableBit_inode h with none | ⟨j, same, inside, clear, -⟩
  · omega
  · obtain rfl : i = j := by omega
    exact ⟨inside, clear⟩

/-- What the search for data bits has found when it stops: `count` clear bits before `i`,
    and either as many as asked for or the end of the search. -/
theorem firstFit_spec {bitmap : Bitmap} {extentSize : Int} {room avail i count avail' i' : Nat}
    (h : firstFit bitmap extentSize room avail i count = .ok (avail', i'))
    (run : avail + count = i) (clear : ∀ j, avail ≤ j → j < i → bitmap.test j = false) :
    avail ≤ avail' ∧ avail' ≤ i' ∧ i' ≤ i + room ∧
      (∀ j, avail' ≤ j → j < i' → bitmap.test j = false) ∧
      (((i' - avail' : Nat) : Int) = extentSize ∨ i' = i + room) := by
  induction room generalizing avail i count with
  | zero =>
    cases h
    exact ⟨le_refl _, by omega, by omega, clear, .inr rfl⟩
  | succ room ih =>
    rw [firstFit] at h
    split at h
    · rename_i enough
      cases h
      exact ⟨le_refl _, by omega, by omega, clear, .inl (by omega)⟩
    · rw [bind_eq_ok] at h
      obtain ⟨used, test, rest⟩ := h
      obtain ⟨inside, rfl⟩ := checkBitUsage_ok.mp test
      cases bit : bitmap.test i with
      | true =>
        simp only [bit, if_true] at rest
        obtain ⟨low, order, high, found, stop⟩ := ih rest rfl fun j _ _ => by omega
        exact ⟨by omega, order, by omega, found, by omega⟩
      | false =>
        simp only [bit, Bool.false_eq_true, if_false] at rest
        obtain ⟨low, order, high, found, stop⟩ := ih rest (by omega) fun j low high => by
          by_cases last : j = i
          · exact last ▸ bit
          · exact clear j low (by omega)
        exact ⟨low, order, by omega, found, by omega⟩

/-- What the search for data bits has passed over when it stops: it has read every bit up to there,
    at most as many clear ones in a row as asked for, and no run that starts earlier is clear. -/
theorem firstFit_least {bitmap : Bitmap} {room avail i count n avail' i' : Nat}
    (h : firstFit bitmap n room avail i count = .ok (avail', i')) (run : avail + count = i)
    (few : count ≤ n) :
    i' ≤ avail' + n ∧ (∀ j, i ≤ j → j < i' → j / 8 < bitmap.length) ∧
      ∀ b, avail ≤ b → b < avail' → ∃ j, b ≤ j ∧ j < b + n ∧ bitmap.test j = true := by
  induction room generalizing avail i count with
  | zero =>
    cases h
    exact ⟨by omega, fun j low high => by omega, fun b low high => by omega⟩
  | succ room ih =>
    rw [firstFit] at h
    split at h
    · cases h
      exact ⟨by omega, fun j low high => by omega, fun b low high => by omega⟩
    · rename_i more
      rw [bind_eq_ok] at h
      obtain ⟨used, test, rest⟩ := h
      obtain ⟨inside, rfl⟩ := checkBitUsage_ok.mp test
      have reads (read : ∀ j, i + 1 ≤ j → j < i' → j / 8 < bitmap.length) (j : Nat) (low : i ≤ j)
          (high : j < i') : j / 8 < bitmap.length := by
        by_cases first : j = i
        · exact first ▸ inside
        · exact read j (by omega) high
      cases bit : bitmap.test i with
      | true =>
        simp only [bit, if_true] at rest
        obtain ⟨short, read, least⟩ := ih rest rfl (by omega)
        refine ⟨short, reads read, fun b low high => ?_⟩
        by_cases before : b ≤ i
        · exact ⟨i, before, by omega, bit⟩
        · exact least b (by omega) high
      | false =>
        simp only [bit, Bool.false_eq_true, if_false] at rest
        obtain ⟨short, read, least⟩ := ih rest (by omega) (by omega)
        exact ⟨short, reads read, least⟩

theorem firstFit_returns {bitmap : Bitmap} {n : Int} {room avail i count : Nat}
    (read : ∀ j, i ≤ j → j < i + room → j / 8 < bitmap.length) :
    ∃ avail' i', firstFit bitmap n room avail i count = .ok (avail', i') := by
  induction room generalizing avail i count with
  | zero => exact ⟨_, _, rfl⟩
  | succ room ih =>
    have test : checkBitUsage bitmap i = .ok (bitmap.test i) :=
      checkBitUsage_ok.mpr ⟨read i (le_refl _) (by omega), rfl⟩
    rw [firstFit, test, ok_bind]
    split
    · exact ⟨_, _, rfl⟩
    · split
      · exact ih fun j low high => read j (by omega) (by omega)
      · exact ih fun j low high => read j (by omega) (by omega)

theorem firstFit_finds {bitmap : Bitmap} {room avail i count n b : Nat} (run : avail + count = i)
    (few : count ≤ n) (low : avail ≤ b) (high : b + n ≤ i + room)
    (read : ∀ j, i ≤ j → j < b + n → j / 8 < bitmap.length)
    (clear : ∀ j, b ≤ j → j < b + n → bitmap.test j = false) :
    ∃ avail', firstFit bitmap n room avail i count = .ok (avail', avail' + n) ∧ avail' ≤ b := by
  induction room generalizing avail i count with
  | zero =>
    have last : i = avail + n := by omega
    exact ⟨avail, by rw [firstFit, last], low⟩
  | succ room ih =>
    rw [firstFit]
    split
    · rename_i enough
      have last : i = avail + n := by omega
      exact ⟨avail, by rw [last], low⟩
    · rename_i more
      have test : checkBitUsage bitmap i = .ok (bitmap.test i) :=
        checkBitUsage_ok.mpr ⟨read i (le_refl _) (by omega), rfl⟩
      rw [test, ok_bind]
      cases bit : bitmap.test i with
      | true =>
        have before : i < b := by
          by_contra after
          have none := clear i (by omega) (by omega)
          rw [bit] at none
          cases none
        exact ih rfl (by omega) (by omega) (by omega) fun j low high => read j (by omega) high
      | false =>
        exact ih (by omega) (by omega) low (by omega) fun j low high => read j (by omega) high

/-- A search for one bit that finds no clear bit has seen only set bits. -/
theorem firstFit_one {bitmap : Bitmap} {room first avail i : Nat}
    (h : firstFit bitmap 1 room first first 0 = .ok (avail, i)) :
    (i = avail + 1 ∧ bitmap.test avail = false) ∨
      ∀ j, first ≤ j → j < first + room → bitmap.test j = true := by
  induction room generalizing first with
  | zero => exact .inr fun j low high => by omega
  | succ room ih =>
    rw [firstFit, if_neg (by decide), bind_eq_ok] at h
    obtain ⟨used, test, rest⟩ := h
    obtain ⟨-, rfl⟩ := checkBitUsage_ok.mp test
    cases bit : bitmap.test first with
    | true =>
      simp only [bit, if_true] at rest
      rcases ih rest with found | full
      · exact .inl found
      · refine .inr fun j low high => ?_
        by_cases same : j = first
        · exact same ▸ bit
        · exact full j (by omega) (by omega)
    | false =>
      simp only [bit, Bool.false_eq_true, if_false] at rest
      cases room with
      | zero =>
        cases rest
        exact .inl ⟨rfl, bit⟩
      | succ room =>
        rw [firstFit, if_pos (by decide)] at rest
        cases rest
        exact .inl ⟨rfl, bit⟩

/-- The end of the search for data bits: one less than the number of blocks of the whole
    image. -/
def A1fsSuperblock.maxIndex (sb : A1fsSuperblock) : Int := toInt (sb.size / 4096 : Nat) - 1

/-- The search returns the first block of a run of clear bits. A request for one block is
    answered with the end of the search when all bits are set. -/
theorem getAvailableBit_data {sb : A1fsSuperblock} {bitmap : Bitmap} {n r : Int}
    (range : (sb.sbFirstEmptyDb : Int) ≤ sb.maxIndex)
    (h : getAvailableBit sb bitmap .data n = .ok r) :
    r = -1 ∨ ∃ first : Nat, r = first ∧ 0 ≤ n ∧ n ≤ sb.sbFreeBlocksCount ∧
      ((∀ j ∈ List.range' first n.toNat, bitmap.test j = false) ∨
        n = 1 ∧ (first : Int) = sb.maxIndex ∧
          ∀ j, sb.sbFirstEmptyDb ≤ j → (j : Int) < sb.maxIndex → bitmap.test j = true) := by
  rw [getAvailableBit] at h
  split at h
  · cases h
    exact .inl rfl
  · rename_i enough
    simp only [bind_eq_ok] at h
    obtain ⟨⟨avail, i⟩, search, h⟩ := h
    obtain ⟨low, order, high, clear, stop⟩ := firstFit_spec search rfl fun j _ _ => by omega
    simp only [A1fsSuperblock.maxIndex] at *
    split at h
    · cases h
      exact .inl rfl
    · cases h
      rename_i stopped
      refine .inr ⟨avail, rfl, by omega, by omega, ?_⟩
      by_cases full : ((i - avail : Nat) : Int) = n
      · refine .inl fun j member => ?_
        rw [List.mem_range'_1] at member
        exact clear j member.1 (by omega)
      · obtain rfl : n = 1 := by omega
        rcases firstFit_one search with ⟨found, -⟩ | used
        · omega
        · have empty : avail = i := by
            by_contra some
            have set := used avail low (by omega)
            rw [clear avail (le_refl _) (by omega)] at set
            cases set
          exact .inr ⟨rfl, by omega, fun j after before => used j after (by omega)⟩

theorem getAvailableBit_low {sb : A1fsSuperblock} {bitmap : Bitmap} {n r : Int}
    (range : (sb.sbFirstEmptyDb : Int) ≤ sb.maxIndex)
    (h : getAvailableBit sb bitmap .data n = .ok r) : r ≤ sb.maxIndex := by
  rw [getAvailableBit] at h
  split at h
  · cases h
    omega
  · obtain ⟨⟨avail, i⟩, search, h⟩ := bind_eq_ok.mp h
    obtain ⟨-, order, high, -, -⟩ := firstFit_spec search rfl fun j _ _ => by omega
    simp only [A1fsSuperblock.maxIndex] at *
    split at h
    · cases h
      omega
    · cases h
      omega

end ExtentFs
