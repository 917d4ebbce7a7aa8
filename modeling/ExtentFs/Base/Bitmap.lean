import Mathlib.Data.Finset.Card
import Mathlib.Data.Finset.Range
import ExtentFs.Base.Bytes

namespace Base

/-- An array of `length` bytes read as bits, the lowest bit of a byte first. -/
structure Bitmap where
  length : Nat
  byte : Bytes

namespace Bitmap

def mask (i : Nat) : Byte := 1#8 <<< (i % 8)

def test (m : Bitmap) (i : Nat) : Bool := m.byte (i / 8) &&& mask i != 0#8

def flip (m : Bitmap) (i : Nat) : Bitmap :=
  { m with byte := fun k => if k = i / 8 then m.byte k ^^^ mask i else m.byte k }

def flipAll (m : Bitmap) (l : List Nat) : Bitmap := l.foldl flip m

def clear (m : Bitmap) (bound : Nat) : Finset Nat := (Finset.range bound).filter fun i => m.test i = false

variable {m : Bitmap} {i j : Nat}

theorem mask_getLsbD (i k : Nat) (bound : k < 8) : (mask i).getLsbD k = decide (k = i % 8) := by
  simp only [mask, BitVec.getLsbD_shiftLeft, BitVec.getLsbD_one]
  grind

theorem test_eq_getLsbD : m.test i = (m.byte (i / 8)).getLsbD (i % 8) := by
  have below : i % 8 < 8 := Nat.mod_lt _ (by omega)
  have only (k : Nat) (bound : k < 8) : (m.byte (i / 8) &&& mask i).getLsbD k =
      ((m.byte (i / 8)).getLsbD k && decide (k = i % 8)) := by
    rw [BitVec.getLsbD_and, mask_getLsbD i k bound]
  cases bit : (m.byte (i / 8)).getLsbD (i % 8) with
  | false =>
    have zero : m.byte (i / 8) &&& mask i = 0#8 := by
      apply BitVec.eq_of_getLsbD_eq
      intro k bound
      rw [only k bound]
      by_cases same : k = i % 8
      · simp [same, bit]
      · simp [same]
    simp [test, zero]
  | true =>
    have set : (m.byte (i / 8) &&& mask i).getLsbD (i % 8) = true := by
      rw [only _ below]
      simp [bit]
    have nonzero : m.byte (i / 8) &&& mask i ≠ 0#8 := by
      intro zero
      simp [zero] at set
    simpa [test] using nonzero

@[simp] theorem flip_length : (m.flip i).length = m.length := rfl

theorem test_flip : (m.flip i).test j = (m.test j ^^ decide (i = j)) := by
  have below : j % 8 < 8 := Nat.mod_lt _ (by omega)
  simp only [test_eq_getLsbD, flip]
  by_cases byte : j / 8 = i / 8
  · simp only [byte, if_true, BitVec.getLsbD_xor, mask_getLsbD i _ below]
    congr 1
    simp only [decide_eq_decide]
    omega
  · have differ : i ≠ j := fun same => byte (by rw [same])
    simp [byte, differ]

@[simp] theorem flipAll_nil : m.flipAll [] = m := rfl

@[simp] theorem flipAll_cons {l : List Nat} : m.flipAll (i :: l) = (m.flip i).flipAll l := rfl

theorem flipAll_append {l k : List Nat} : m.flipAll (l ++ k) = (m.flipAll l).flipAll k := by
  simp [flipAll, List.foldl_append]

theorem flip_comm : (m.flip i).flip j = (m.flip j).flip i := by
  simp only [flip, mk.injEq, true_and]
  funext k
  by_cases first : k = i / 8
  · by_cases second : k = j / 8
    · rw [if_pos second, if_pos first, if_pos first, if_pos second, BitVec.xor_assoc, BitVec.xor_assoc,
        BitVec.xor_comm (mask i)]
    · rw [if_neg second, if_pos first, if_pos first, if_neg second]
  · by_cases second : k = j / 8
    · rw [if_pos second, if_neg first, if_neg first, if_pos second]
    · rw [if_neg second, if_neg first, if_neg first, if_neg second]

theorem flipAll_flip {l : List Nat} : (m.flipAll l).flip i = (m.flip i).flipAll l := by
  induction l generalizing m with
  | nil => rfl
  | cons j l ih => rw [flipAll_cons, ih, flip_comm, flipAll_cons]

theorem flipAll_comm {l k : List Nat} : (m.flipAll l).flipAll k = (m.flipAll k).flipAll l := by
  induction k generalizing m with
  | nil => rfl
  | cons j k ih => rw [flipAll_cons, flipAll_flip, ih, flipAll_cons]

theorem flip_flip : (m.flip i).flip i = m := by
  cases m with
  | mk length byte =>
    simp only [flip, mk.injEq, true_and]
    funext k
    by_cases same : k = i / 8
    · rw [if_pos same, if_pos same, BitVec.xor_assoc, BitVec.xor_self, BitVec.xor_zero]
    · rw [if_neg same, if_neg same]

theorem flipAll_flipAll {l : List Nat} : (m.flipAll l).flipAll l = m := by
  induction l generalizing m with
  | nil => rfl
  | cons j l ih => rw [flipAll_cons, flipAll_cons, flipAll_flip, flip_flip, ih]

theorem flipAll_perm {l k : List Nat} (perm : l.Perm k) : m.flipAll l = m.flipAll k := by
  apply perm.foldl_eq'
  intro i _ j _ m
  exact flip_comm

@[simp] theorem flipAll_length {l : List Nat} : (m.flipAll l).length = m.length := by
  induction l generalizing m with
  | nil => rfl
  | cons i l ih => rw [flipAll_cons, ih, flip_length]

theorem test_flipAll_of_not_mem {l : List Nat} (absent : j ∉ l) : (m.flipAll l).test j = m.test j := by
  induction l generalizing m with
  | nil => rfl
  | cons i l ih =>
    have differ : i ≠ j := fun same => absent (by simp [same])
    rw [flipAll_cons, ih fun member => absent (by simp [member]), test_flip]
    simp [differ]

theorem test_flipAll {l : List Nat} (nodup : l.Nodup) :
    (m.flipAll l).test j = (m.test j ^^ decide (j ∈ l)) := by
  induction l generalizing m with
  | nil => simp
  | cons i l ih =>
    obtain ⟨absent, rest⟩ := List.nodup_cons.mp nodup
    rw [flipAll_cons, ih rest, test_flip]
    by_cases same : i = j
    · subst same
      simp [absent]
    · have same' : j ≠ i := fun h => same h.symm
      simp [same, same']

variable {bound : Nat}

theorem mem_clear : i ∈ m.clear bound ↔ i < bound ∧ m.test i = false := by
  simp [clear]

theorem clear_card_le : (m.clear bound).card ≤ bound := by
  calc (m.clear bound).card ≤ (Finset.range bound).card := Finset.card_filter_le _ _
    _ = bound := Finset.card_range bound

theorem clear_flip_of_set (inside : i < bound) (set : m.test i = true) :
    ((m.flip i).clear bound).card = (m.clear bound).card + 1 := by
  have absent : i ∉ m.clear bound := by simp [mem_clear, set]
  rw [← Finset.card_insert_of_notMem absent]
  congr 1
  ext j
  simp only [mem_clear, Finset.mem_insert, test_flip]
  by_cases same : i = j
  · subst same
    simp [inside, set]
  · have same' : j ≠ i := fun h => same h.symm
    simp [same, same']

theorem clear_flip_of_clear (inside : i < bound) (unset : m.test i = false) :
    ((m.flip i).clear bound).card + 1 = (m.clear bound).card := by
  have set : (m.flip i).test i = true := by simp [test_flip, unset]
  rw [← clear_flip_of_set inside set, flip_flip]

theorem clear_flipAll_of_set {l : List Nat} (nodup : l.Nodup) (inside : ∀ b ∈ l, b < bound)
    (set : ∀ b ∈ l, m.test b = true) :
    ((m.flipAll l).clear bound).card = (m.clear bound).card + l.length := by
  induction l generalizing m with
  | nil => simp
  | cons i l ih =>
    obtain ⟨absent, rest⟩ := List.nodup_cons.mp nodup
    have set' : ∀ b ∈ l, (m.flip i).test b = true := by
      intro b member
      have differ : i ≠ b := fun same => absent (same ▸ member)
      simp [test_flip, differ, set b (by simp [member])]
    rw [flipAll_cons, ih rest (fun b member => inside b (by simp [member])) set',
      clear_flip_of_set (inside i (by simp)) (set i (by simp)), List.length_cons]
    omega

theorem clear_flipAll_of_clear {l : List Nat} (nodup : l.Nodup) (inside : ∀ b ∈ l, b < bound)
    (unset : ∀ b ∈ l, m.test b = false) :
    ((m.flipAll l).clear bound).card + l.length = (m.clear bound).card := by
  induction l generalizing m with
  | nil => simp
  | cons i l ih =>
    obtain ⟨absent, rest⟩ := List.nodup_cons.mp nodup
    have unset' : ∀ b ∈ l, (m.flip i).test b = false := by
      intro b member
      have differ : i ≠ b := fun same => absent (same ▸ member)
      simp [test_flip, differ, unset b (by simp [member])]
    have tail := ih rest (fun b member => inside b (by simp [member])) unset'
    have head := clear_flip_of_clear (inside i (by simp)) (unset i (by simp))
    rw [flipAll_cons, List.length_cons]
    omega

end Bitmap

end Base
