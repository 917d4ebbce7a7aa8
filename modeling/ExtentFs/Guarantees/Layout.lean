import Mathlib.Order.Bounds.Basic
import ExtentFs.Effects.Layout

namespace ExtentFs

open Base

instance (sb : A1fsSuperblock) (size nInodes : Nat) : Decidable (RegionsDisjoint sb size nInodes) :=
  inferInstanceAs (Decidable (_ ∧ _))

/-- The parts of a formatted image are apart and the superblock counts the data blocks. -/
def LayoutCorrect (image : Bytes) (size nInodes : Nat) : Prop :=
  let sb := A1fsSuperblock.read image
  RegionsDisjoint sb size nInodes ∧
    sb.sbFreeBlocksCount = (size / 4096 - sb.sbFirstDataBlock : Nat) ∧
    sb.sbTotalDataBlocks = size / 4096 - sb.sbFirstDataBlock

instance (image : Bytes) (size nInodes : Nat) : Decidable (LayoutCorrect image size nInodes) :=
  inferInstanceAs (Decidable (_ ∧ _ ∧ _))

variable {blocks nInodes d : Nat} {now : Timespec} {image : Bytes}

/-- The inode table gets one block for 256 inodes and holds 16, and the number of data blocks
    is kept in one byte. -/
theorem mkfs_layout_iff (sizeBound : 4096 * blocks < 2 ^ 64) (pos : 0 < nInodes)
    (bound : nInodes < 2 ^ 64)
    (made : mkfs (fun _ => 0) (4096 * blocks) nInodes now = .ok (some image)) :
    LayoutCorrect image (4096 * blocks) nInodes ↔ nInodes ≤ 16 ∧ blocks ≤ 259 := by
  obtain ⟨k, sizing, -, room, -, -, rfl⟩ := mkfs_some pos bound made
  have quotient : 4096 * blocks / 4096 = blocks := by omega
  constructor
  · rintro ⟨disjoint, -, total⟩
    obtain ⟨d, rfl, g, left⟩ := geometry_of_disjoint pos sizing room disjoint
    have needed := sizeBitmap_needed sizing
    rw [g.mounted_superblock now sizeBound left, quotient] at total
    simp only [formatted] at total
    obtain ⟨_, _, _, _, _, _⟩ := g
    generalize blocksLeft blocks nInodes = remaining at *
    omega
  · rintro ⟨few, small⟩
    have left : blocksLeft blocks nInodes = blocks - 3 := by
      rw [blocksLeft, bitmapBlocks_small pos (by omega), tableBlocks_small (by omega),
        toInt_of_fits (by omega) (by omega)]
      omega
    have low := (sizeBitmap_ok sizing).1
    rw [left, sizeBitmap_small (by omega) (by omega)] at sizing
    cases sizing
    have g : Geometry blocks nInodes 1 := ⟨pos, few, by omega, by omega, by omega, by omega⟩
    have shape := g.mounted_superblock now sizeBound (by omega)
    refine ⟨?_, ?_, ?_⟩
    · rw [show ((1 : Int)) = (1 : Nat) from rfl, shape]
      exact g.disjoint
    · rw [show ((1 : Int)) = (1 : Nat) from rfl, shape, quotient]
      rfl
    · rw [show ((1 : Int)) = (1 : Nat) from rfl, shape, quotient]
      simp only [formatted]
      omega

theorem mkfs_layout_iff_default :
    ∃ image, mkfs (fun _ => 0) (4096 * 64) 16 ⟨0, 0⟩ = .ok (some image) ∧
      LayoutCorrect image (4096 * 64) 16 := by
  have run : ∃ image, mkfs (fun _ => 0) (4096 * 64) 16 ⟨0, 0⟩ = .ok (some image) := by
    decide +kernel
  obtain ⟨image, made⟩ := run
  exact ⟨image, made, (mkfs_layout_iff (by decide) (by decide) (by decide) made).mpr
    ⟨by decide, by decide⟩⟩

/-- Seventeen inodes of 256 bytes reach into the data region. -/
theorem mkfs_layout_overlap :
    ∃ image, mkfs (fun _ => 0) (4096 * 64) 17 ⟨0, 0⟩ = .ok (some image) ∧
      ¬ LayoutCorrect image (4096 * 64) 17 := by
  decide +kernel

/-- The sizing loop ends with the least number of bitmap blocks that have a bit for each other block. -/
def SizedExactly (r : Int) : Prop :=
  ∃ k, sizeBitmap r (r.toNat + 1) 1 = .ok k ∧ IsLeast {k | 1 ≤ k ∧ r - k ≤ 32768 * k} k

/-- A bitmap block too many is taken when the other blocks fill the bitmap blocks before it. -/
theorem bitmap_sized_iff {r : Int} (some : 2 ≤ r) : SizedExactly r ↔ ¬ 32769 ∣ r := by
  have whole : enoughBitmap r r = true := (enoughBitmap_iff (by omega)).mpr (.inl (by omega))
  constructor
  · rintro ⟨k, sizing, ⟨low, enough⟩, least⟩ ⟨j, rfl⟩
    have before : k ≤ j := least ⟨by omega, by omega⟩
    have same : k = j := by omega
    have stops := (sizeBitmap_ok sizing).2.1
    rw [enoughBitmap_iff (by omega)] at stops
    omega
  · intro uneven
    obtain ⟨k, sizing⟩ : ∃ k, sizeBitmap r (r.toNat + 1) 1 = .ok k :=
      sizeBitmap_ends whole (by omega) (by omega)
    obtain ⟨low, stops, short⟩ := sizeBitmap_ok sizing
    have inside : k ≤ r := by
      by_contra beyond
      have before := short r (by omega) (by omega)
      rw [whole] at before
      cases before
    rw [enoughBitmap_iff (by omega)] at stops
    refine ⟨k, sizing, ⟨low, by omega⟩, ?_⟩
    rintro j ⟨first, enough⟩
    by_contra before
    have passed := short j first (by omega)
    rw [Bool.eq_false_iff, ne_eq, enoughBitmap_iff (by omega)] at passed
    have full : r = 32769 * j := by omega
    exact uneven ⟨j, full⟩

theorem bitmap_sized_iff_uneven : SizedExactly 40000 :=
  (bitmap_sized_iff (by decide)).mpr (by decide)

/-- On a device of 32772 blocks two blocks hold the bitmap of 32767 data blocks. -/
theorem bitmap_sized_fails : blocksLeft 32772 16 = 32769 ∧ ¬ SizedExactly (blocksLeft 32772 16) := by
  have left : blocksLeft 32772 16 = 32769 := by decide
  have sizing : sizeBitmap 32769 32770 1 = .ok 2 := by decide +kernel
  refine ⟨left, ?_⟩
  rw [left]
  rintro ⟨k, found, -, least⟩
  have two : k = 2 := Except.ok.inj (found.symm.trans sizing)
  have one : k ≤ 1 := least ⟨by decide, by decide⟩
  omega

end ExtentFs
