import ExtentFs.Effects.Read

namespace ExtentFs

/-- The size fields of the `k` used extents are the numbers of bytes that the file has there. -/
structure TrueSizes (inode : A1fsInode) (k : Nat) : Prop where
  used : inode.lastUsedExtent = k - 1
  some : 0 < k
  direct : k ≤ 12
  positive : ∀ m < k, 0 < (inode.iExtent m).size
  full : ∀ m, m + 1 < k → (inode.iExtent m).size = 4096 * (inode.iExtent m).count
  partly : (inode.iExtent (k - 1)).size ≤ 4096 * (inode.iExtent (k - 1)).count
  total : ((List.range k).map fun m => (inode.iExtent m).size).sum = inode.size

/-- The search for an offset ends with the extent that holds it and the offset inside the extent. The variable
    of the caller that `remainingoffset` points to keeps the offset: the search moves its own pointer. -/
def Locates (inode : A1fsInode) (offset : Nat) : Prop :=
  ∃ e : Nat, ∃ r : Int, findOffsetExtent inode offset 12 0 = .ok (e, 0) ∧ r = offset ∧
    r < (inode.iExtent e).size ∧ ((List.range e).map fun m => (inode.iExtent m).size).sum + r = offset

variable {inode : A1fsInode} {k offset : Nat}

theorem TrueSizes.search (sizes : TrueSizes inode k) {r : Nat × Int} :
    findOffsetExtent inode offset 12 0 = .ok r ↔ r = (0, 0) ∧ (offset : Int) ≤ (inode.iExtent 0).size := by
  have first := sizes.positive 0 sizes.some
  rw [finds_iff]
  constructor
  · rintro ⟨e, rfl, finds⟩
    cases finds with
    | start => exact ⟨rfl, by omega⟩
    | slot some inside reaches passed =>
      obtain rfl : e = 0 := by
        by_contra later
        have zero := passed 0 (by omega)
        omega
      exact ⟨rfl, reaches⟩
  · rintro ⟨rfl, reaches⟩
    by_cases zero : offset = 0
    · subst zero
      exact ⟨0, rfl, .start⟩
    · exact ⟨0, rfl, .slot (by omega) (by omega) reaches fun m below => by omega⟩

/-- An offset is located exactly in the first extent: at its end the search stops an extent early, and behind
    it the pointer is moved and not the offset. -/
theorem locates_iff (sizes : TrueSizes inode k) :
    Locates inode offset ↔ (offset : Int) < (inode.iExtent 0).size := by
  constructor
  · rintro ⟨e, r, search, rfl, within, -⟩
    obtain ⟨first, -⟩ := sizes.search.mp search
    cases first
    exact within
  · intro within
    have search : findOffsetExtent inode offset 12 0 = .ok (0, 0) :=
      sizes.search.mpr ⟨rfl, by omega⟩
    exact ⟨0, offset, search, rfl, within, by simp⟩

def twoExtents : A1fsInode where
  mode := 0o100644#32
  links := 1
  size := 8192
  iMtime := ⟨0, 0⟩
  iExtent := fun m => if m = 0 then ⟨0, 1, 4096⟩ else if m = 1 then ⟨2, 1, 4096⟩ else ⟨0, 0, 0⟩
  lastUsedExtent := 1
  lastUsedIndirect := -1
  numEntries := 0

theorem twoExtents_sizes : TrueSizes twoExtents 2 where
  used := rfl
  some := by decide
  direct := by decide
  positive := by decide
  full := by
    intro m below
    obtain rfl : m = 0 := by omega
    rfl
  partly := by decide
  total := by decide

theorem locates_iff_first : Locates twoExtents 100 := (locates_iff twoExtents_sizes).mpr (by decide)

/-- The first byte of the second extent is taken for one behind the end of the first. -/
theorem locates_fails :
    TrueSizes twoExtents 2 ∧ 4096 < twoExtents.size ∧ ¬ Locates twoExtents 4096 := by
  refine ⟨twoExtents_sizes, by decide, ?_⟩
  rintro ⟨e, r, search, rfl, within, -⟩
  obtain ⟨first, -⟩ := twoExtents_sizes.search.mp search
  cases first
  exact absurd within (by decide)

end ExtentFs
