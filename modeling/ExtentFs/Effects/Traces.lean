import ExtentFs.Base.Traced
import ExtentFs.Effects.Truncate

namespace ExtentFs

open Base

/-- What a growing file logs: the lengths handed to `memset` with the addresses, in its last block and in the
    blocks it gets, each request to `make_data_blocks` with the length that is passed on for the last of these
    blocks, and that no case of the extension applies. -/
inductive Action where
  | tail (address length : Int)
  | request (blocks leftover : Int)
  | clear (address length : Int)
  | none

abbrev Run := Traced Action Fault

open Traced

def zeroOutBlocksLogged (curInode extentIndex : Nat) (leftoverBytes : Int) :
    (length : Nat) → FsCtx → (j : Nat) → (blocksLeft : Int) → Run (FsCtx × Int)
  | 0, fs, _, blocksLeft => pure (fs, blocksLeft)
  | length + 1, fs, j, blocksLeft => do
    let dbAddr ← lift (FsCtx.blockOffset j)
    if blocksLeft = 1 ∧ leftoverBytes ≠ 0 then
      tell (.clear dbAddr leftoverBytes)
      let fs ← lift (fs.clearBytes dbAddr leftoverBytes)
      return (fs.setInode curInode ((fs.itable curInode).resize extentIndex leftoverBytes), blocksLeft - 1)
    else
      tell (.clear dbAddr 4096)
      let fs ← lift (fs.clearBytes dbAddr 4096)
      zeroOutBlocksLogged curInode extentIndex leftoverBytes length
        (fs.setInode curInode ((fs.itable curInode).resize extentIndex (-4096))) (j + 1) (blocksLeft - 1)

def zeroExtentsLogged (curInode : Nat) (leftoverBytes : Int) (firstExtent firstDb : Nat) :
    List Nat → FsCtx → (blocksLeft : Int) → Run FsCtx
  | [], fs, _ => pure fs
  | i :: rest, fs, blocksLeft =>
    if blocksLeft = 0 then pure fs
    else do
      let extent ← lift ((fs.itable curInode).extentAt i)
      let start := if i = firstExtent then firstDb else extent.start
      let (fs, blocksLeft) ←
        zeroOutBlocksLogged curInode i leftoverBytes extent.count fs start blocksLeft
      zeroExtentsLogged curInode leftoverBytes firstExtent firstDb rest
        (fs.setInode curInode ((fs.itable curInode).resize i leftoverBytes)) blocksLeft

def truncateHelperLogged (fuel : Nat) (fs : FsCtx) (curInode : Nat) (size : Int) (now : Timespec) :
    Run (FsCtx × Int) := do
  let (blocks, leftoverBytes) ← lift (blockRequest size)
  tell (.request blocks leftoverBytes)
  let (fs, made) ← lift (makeDataBlocks curInode now fuel fs blocks)
  if blocks ≠ made then return (fs, -1)
  else
    let fs := touch fs curInode now
    let inode := fs.itable curInode
    let slots := (inode.lastUsedExtent + 1).toNat
    let (firstExtent, firstDb) ← lift (firstToZero inode slots blocks)
    let fs ← zeroExtentsLogged curInode leftoverBytes firstExtent firstDb
      (List.range' firstExtent (slots - firstExtent)) fs blocks
    return (touch fs curInode now, 0)

def extendFileLogged (env : Env) (fuel : Nat) (fs : FsCtx) (curInode : Nat) (size : Int) :
    Run (FsCtx × Int) := do
  let inode := fs.itable curInode
  let curSize := toInt inode.size
  let numBlocks := curSize.tdiv 4096
  let leftoverBytes := curSize - numBlocks * 4096
  let bytesTilFull := 4096 - leftoverBytes
  if size < bytesTilFull then
    let (fs, helped) ← truncateHelperLogged fuel fs curInode size env.now
    if helped < 0 then return (fs, -env.errno)
    else return (grow fs curInode (size - curSize), 0)
  else if size > bytesTilFull then
    let remainingBytes := toInt (size - inode.size)
    let dbAddr ← lift (do FsCtx.blockOffset (← lastDbIndex inode))
    tell (.tail (dbAddr + leftoverBytes) bytesTilFull)
    let fs ← lift (fs.clearBytes (dbAddr + leftoverBytes) bytesTilFull)
    let remainingBytes ← lift (intArith (remainingBytes - bytesTilFull))
    let (fs, helped) ← if remainingBytes ≠ 0
      then truncateHelperLogged fuel fs curInode remainingBytes env.now else pure (fs, 0)
    if helped < 0 then return (fs, -env.errno)
    else return (grow fs curInode (toInt (size - (fs.itable curInode).size)), 0)
  else
    tell .none
    return (fs, -1)

section Erasure

variable {fs : FsCtx} {i k fuel : Nat} {leftover size : Int} {now : Timespec} {env : Env}

theorem out_ite {ω ε : Type*} {α : Type} {c : Prop} [Decidable c] {x y : Traced ω ε α} :
    (if c then x else y).out = if c then x.out else y.out := by
  split <;> rfl

theorem zeroOutBlocksLogged_out {length j : Nat} {left : Int} :
    (zeroOutBlocksLogged i k leftover length fs j left).out = zeroOutBlocks i k leftover length fs j left := by
  induction length generalizing fs j left with
  | zero => rfl
  | succ length ih =>
    rw [zeroOutBlocksLogged, zeroOutBlocks, out_bind, out_lift]
    congr 1
    funext dbAddr
    rw [out_ite]
    split
    · rw [out_bind, out_tell, ok_bind, out_bind, out_lift]
      rfl
    · rw [out_bind, out_tell, ok_bind, out_bind, out_lift]
      congr 1
      funext cleared
      show _ = zeroOutBlocks i k leftover length
        (cleared.setInode i ((cleared.itable i).resize k (-4096))) (j + 1) (left - 1)
      exact ih

theorem zeroExtentsLogged_out {firstExtent firstDb : Nat} {l : List Nat} {left : Int} :
    (zeroExtentsLogged i leftover firstExtent firstDb l fs left).out =
      zeroExtents i leftover firstExtent firstDb l fs left := by
  induction l generalizing fs left with
  | nil => rfl
  | cons slot rest ih =>
    rw [zeroExtentsLogged, zeroExtents, out_ite]
    split
    · rfl
    · rw [out_bind, out_lift]
      congr 1
      funext extent
      rw [out_bind, zeroOutBlocksLogged_out]
      congr 1
      funext zeroed
      exact ih

theorem truncateHelperLogged_out :
    (truncateHelperLogged fuel fs i size now).out = truncateHelper fuel fs i size now := by
  rw [truncateHelperLogged, truncateHelper, out_bind, out_lift]
  congr 1
  funext request
  obtain ⟨blocks, leftover⟩ := request
  dsimp only
  rw [out_bind, out_tell, ok_bind, out_bind, out_lift]
  congr 1
  funext made
  obtain ⟨fs1, made⟩ := made
  dsimp only
  rw [out_ite]
  split
  · rfl
  · rw [out_bind, out_lift]
    congr 1
    funext first
    obtain ⟨firstExtent, firstDb⟩ := first
    dsimp only
    rw [out_bind, zeroExtentsLogged_out]
    rfl

/-- The log changes nothing of what the extension does. -/
theorem extendFileLogged_out : (extendFileLogged env fuel fs i size).out = extendFile env fuel fs i size := by
  rw [extendFileLogged, extendFile]
  dsimp only
  rw [out_ite]
  split
  · rw [out_bind, truncateHelperLogged_out]
    congr 1
    funext helped
    rw [out_ite]
    rfl
  · rw [out_ite]
    split
    · rw [out_bind, out_lift, bind_assoc]
      congr 1
      funext last
      congr 1
      funext dbAddr
      rw [out_bind, out_tell, ok_bind, out_bind, out_lift]
      congr 1
      funext cleared
      rw [out_bind, out_lift]
      congr 1
      funext remaining
      rw [out_ite]
      split
      · rw [out_bind, truncateHelperLogged_out]
        congr 1
        funext helped
        rw [out_ite]
        rfl
      · rw [out_bind, out_pure, ok_bind, pure_bind, out_ite]
        rfl
    · rfl

end Erasure

/-- A `memset` of a block, or of the last block up to its partial length. -/
def Action.Zeroes (leftover : Int) : Action → Prop
  | .clear _ length => length = 4096 ∨ length = leftover
  | _ => False

section Logs

variable {fs : FsCtx} {i k fuel : Nat} {leftover size : Int} {now : Timespec} {env : Env}

theorem zeroOutBlocksLogged_logs {length j : Nat} {left : Int} :
    Logs (Action.Zeroes leftover) (zeroOutBlocksLogged i k leftover length fs j left) := by
  induction length generalizing fs j left with
  | zero => exact .pure
  | succ length ih =>
    rw [zeroOutBlocksLogged]
    refine .bind .lift fun dbAddr _ => .ite (fun last => ?_) fun more => ?_
    · exact .bind (.tell (.inr rfl)) fun _ _ => .bind .lift fun cleared _ => .pure
    · exact .bind (.tell (.inl rfl)) fun _ _ => .bind .lift fun cleared _ => ih

theorem zeroExtentsLogged_logs {firstExtent firstDb : Nat} {l : List Nat} {left : Int} :
    Logs (Action.Zeroes leftover) (zeroExtentsLogged i leftover firstExtent firstDb l fs left) := by
  induction l generalizing fs left with
  | nil => exact .pure
  | cons slot rest ih =>
    rw [zeroExtentsLogged]
    refine .ite (fun done => .pure) fun more => .bind .lift fun extent _ => ?_
    exact .bind zeroOutBlocksLogged_logs fun zeroed _ => ih

theorem truncateHelperLogged_log {blocks : Int} (request : blockRequest size = .ok (blocks, leftover)) :
    ∃ rest, (truncateHelperLogged fuel fs i size now).log = .request blocks leftover :: rest ∧
      ∀ e ∈ rest, e.Zeroes leftover := by
  rw [truncateHelperLogged, request, lift_bind]
  dsimp only
  refine ⟨_, tell_bind, ?_⟩
  show Logs (Action.Zeroes leftover) _
  refine .bind .lift fun made _ => .ite (fun differ => .pure) fun same => ?_
  refine .bind .lift fun first _ => .bind zeroExtentsLogged_logs fun zeroed _ => .pure

end Logs

end ExtentFs
