import ExtentFs.Base.Bytes

namespace Base.Bytes

/-- Bytes change only inside some blocks of the storage. -/
def ChangedWithin (blockSize : Nat) (m m' : Bytes) (l : List Nat) : Prop :=
  ∀ x, x / blockSize ∉ l → m' x = m x

namespace ChangedWithin

variable {blockSize a b n : Nat} {m m' m'' : Bytes} {l k : List Nat}

theorem refl : ChangedWithin blockSize m m l := fun _ _ => rfl

theorem trans (first : ChangedWithin blockSize m m' l) (second : ChangedWithin blockSize m' m'' l) :
    ChangedWithin blockSize m m'' l :=
  fun x outside => (second x outside).trans (first x outside)

theorem mono (changed : ChangedWithin blockSize m m' l) (subset : l ⊆ k) :
    ChangedWithin blockSize m m' k :=
  fun x outside => changed x fun member => outside (subset member)

theorem disjoint (changed : ChangedWithin blockSize m m' l) (apart : k.Disjoint l) {x : Nat}
    (member : x / blockSize ∈ k) : m' x = m x :=
  changed x fun inside => apart member inside

theorem store {bytes : List Byte}
    (covers : ∀ x, a ≤ x → x < a + bytes.length → x / blockSize ∈ l) :
    ChangedWithin blockSize m (m.store a bytes) l := by
  intro x outside
  apply store_outside
  by_contra inside
  exact outside (covers x (by omega) (by omega))

theorem fill {value : Byte} (covers : ∀ x, a ≤ x → x < a + n → x / blockSize ∈ l) :
    ChangedWithin blockSize m (m.fill a n value) l := by
  intro x outside
  apply fill_outside
  by_contra inside
  exact outside (covers x (by omega) (by omega))

end ChangedWithin

theorem mem_run {blockSize first count x : Nat} (low : blockSize * first ≤ x)
    (high : x < blockSize * (first + count)) : x / blockSize ∈ List.range' first count := by
  rw [List.mem_range'_1]
  exact ⟨(Nat.le_div_iff_mul_le (by grind)).mpr (by rwa [Nat.mul_comm]),
    Nat.div_lt_of_lt_mul high⟩

end Base.Bytes
