import ExtentFs.Effects.Layout
import ExtentFs.Effects.Truncate

namespace ExtentFs

open Base

/-- The addresses formed for a data block are those of the block: in `int` by the directory
    scans and the zeroing loops, in `uint32_t` by `a1fs_read` and `a1fs_write`. -/
structure FsCtx.Addresses (fs : FsCtx) (j : Nat) : Prop where
  scanned : FsCtx.blockOffset j = .ok (4096 * j)
  region : FsCtx.blockOffset fs.sb.sbFirstDataBlock = .ok (4096 * fs.sb.sbFirstDataBlock)
  copied : ∀ offset : Nat, extentData j offset = 4096 * j + offset
  inside : 4096 * fs.sb.sbFirstDataBlock + 4096 * j + 4096 ≤ fs.size

/-- Every address is right exactly on an image with at most 2 GiB of data. -/
theorem addresses_right_iff (image : Bytes) (size : Nat) :
    (∀ j < (fsCtxInit image size).1.dataBlocks, (fsCtxInit image size).1.Addresses j) ↔
      (fsCtxInit image size).1.dataBlocks ≤ 2 ^ 19 := by
  have byte : (fsCtxInit image size).1.sb.sbFirstDataBlock < 256 := (image offFirstDataBlock).isLt
  set fs := (fsCtxInit image size).1 with fsDef
  constructor
  · intro right
    by_contra many
    have scanned := (right (2 ^ 19) (by omega)).scanned
    have fits := (blockOffset_ok.mp scanned).1
    omega
  · intro few j below
    refine ⟨blockOffset_ok.mpr ⟨by omega, rfl⟩, blockOffset_ok.mpr ⟨by omega, rfl⟩, ?_, ?_⟩
    · intro offset
      rw [extentData, Nat.mod_eq_of_lt (by omega)]
      omega
    · rw [FsCtx.dataBlocks, FsCtx.dataSize] at below
      omega

/-- The offset of block 2^19 of an image of 524400 blocks does not fit in an `int`. -/
theorem addresses_right_fails : ∃ image,
    mkfs (fun _ => 0) (4096 * 524400) 16 ⟨0, 0⟩ = .ok (some image) ∧
      ¬ ∀ j < (fsCtxInit image (4096 * 524400)).1.dataBlocks,
        (fsCtxInit image (4096 * 524400)).1.Addresses j := by
  have made : ∃ image, mkfs (fun _ => 0) (4096 * 524400) 16 ⟨0, 0⟩ = .ok (some image) ∧
      2 ^ 19 < (fsCtxInit image (4096 * 524400)).1.dataBlocks := by decide +kernel
  obtain ⟨image, returned, many⟩ := made
  refine ⟨image, returned, fun right => ?_⟩
  have few := (addresses_right_iff image (4096 * 524400)).mp right
  omega

end ExtentFs
