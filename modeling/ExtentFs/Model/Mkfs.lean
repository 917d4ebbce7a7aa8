import ExtentFs.Model.Image

namespace ExtentFs

open Base

/-- What `getopt(argc, argv, "i:hfvz")` returns before -1, with `optarg`. -/
inductive GetOpt where
  | i (optarg : CString)
  | h
  | f
  | v
  | z
  | unknown
  deriving DecidableEq

structure MkfsOpts where
  imgPath : Option CString := none
  nInodes : Nat := 0
  help : Bool := false
  force : Bool := false
  zero : Bool := false
  deriving DecidableEq

def isSpace (c : Byte) : Bool := c = 32#8 ∨ 9#8 ≤ c ∧ c ≤ 13#8

def isDigit (c : Byte) : Bool := 48#8 ≤ c ∧ c ≤ 57#8

/-- `strtoul(s, NULL, 10)`, which takes a sign and saturates. -/
def strtoul (s : List Byte) : Nat :=
  let s := s.dropWhile isSpace
  let unsigned := if s.head? = some 45#8 ∨ s.head? = some 43#8 then s.tail else s
  let n := (unsigned.takeWhile isDigit).foldl (fun n c => 10 * n + (c.toNat - 48)) 0
  if 2 ^ 64 ≤ n then 2 ^ 64 - 1 else if s.head? = some 45#8 then (2 ^ 64 - n) % 2 ^ 64 else n

/-- `none` for arguments that are refused. `operands` are the arguments from `optind` on; -v is
    accepted by `getopt` and has no case. -/
def parseArgs (operands : List CString) : List GetOpt → MkfsOpts → Checked (Option MkfsOpts)
  | [], opts =>
    match operands with
    | [] => return none
    | path :: _ => return if opts.nInodes = 0 then none else some { opts with imgPath := some path }
  | .i optarg :: rest, opts => parseArgs operands rest { opts with nInodes := strtoul optarg.bytes }
  | .h :: _, opts => return some { opts with help := true }
  | .f :: rest, opts => parseArgs operands rest { opts with force := true }
  | .z :: rest, opts => parseArgs operands rest { opts with zero := true }
  | .unknown :: _, _ => return none
  | .v :: _, _ => .error .assertFailed

def a1fsIsPresent (image : Bytes) : Bool := image.word64 offMagic = a1fsMagic

/-- `mkfs` with the bytes of the image that it leaves behind when it gives up. -/
def mkfsWrites (image : Bytes) (size nInodes : Nat) (now : Timespec) : Checked (Bytes × Bool) := do
  if a1fsIsPresent image then return (image, false)
  else
    let blocksRemaining ← intArith (toInt (size / 4096 : Nat) - 1)
    if blocksRemaining ≤ 0 then return (image, false)
    else
      let image := image.set64 offFreeInodesCount (BitVec.ofNat 64 nInodes)
      let image := image.set64 offInodesCount (BitVec.ofNat 64 nInodes)
      let numIbmBlocks := blocksFor nInodes 32768
      let blocksRemaining ← intArith (blocksRemaining - numIbmBlocks)
      if blocksRemaining ≤ 0 then return (image, false)
      else
        let image := image.set8 offInodeBitmap (uint8 1)
        let numIblocks := blocksFor nInodes 256
        let blocksRemaining ← intArith (blocksRemaining - numIblocks)
        if blocksRemaining ≤ 0 then return (image, false)
        else
          let numDbmBlocks ← sizeBitmap blocksRemaining (blocksRemaining.toNat + 1) 1
          let blocksRemaining ← intArith (blocksRemaining - numDbmBlocks)
          if blocksRemaining ≤ 0 then return (image, false)
          else
            let image := image.set8 offBlockBitmap (uint8 (1 + numIbmBlocks))
            let image := image.set8 offInodeTable (uint8 (1 + numIbmBlocks + numDbmBlocks))
            let image := image.set8 offFirstDataBlock (uint8 (1 + numIbmBlocks + numDbmBlocks + numIblocks))
            match ← makeRoot image size now with
            | none => return (image, false)
            | some image => return (fillSuperblock image size blocksRemaining, true)

/-- The image files that can be opened and mapped, by their paths. -/
abbrev Disk := CString → Option ImageFile

def Disk.put (disk : Disk) (path : CString) (file : ImageFile) : Disk :=
  fun p => if p = path then some file else disk p

/-- The exit status of the formatting tool and what it leaves on the disk. -/
def mkfsMain (now : Timespec) (args : List GetOpt) (operands : List CString) (disk : Disk) :
    Checked (Nat × Disk) := do
  match ← parseArgs operands args {} with
  | none => return (1, disk)
  | some opts =>
    if opts.help then return (0, disk)
    else match opts.imgPath with
    | none => return (1, disk)
    | some path => match disk path with
      | none => return (1, disk)
      | some file => match mapFile file 4096 with
        | none => return (1, disk)
        | some image =>
          if ¬ opts.force ∧ a1fsIsPresent image then return (1, disk)
          else
            let image := if opts.zero then fun _ => 0 else image
            let (image, formatted) ← mkfsWrites image file.size opts.nInodes now
            return (if formatted then 0 else 1, disk.put path ⟨image, file.size⟩)

end ExtentFs
