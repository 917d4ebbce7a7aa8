import ExtentFs.Effects.Layout
import ExtentFs.Effects.Read

namespace ExtentFs

open Base

/-- Byte `x` of a file, found by walking its extents in order. -/
def FsCtx.fileByte (fs : FsCtx) (inode : A1fsInode) (x : Nat) : Byte :=
  fs.data (4096 * inode.blocks.getD (x / 4096) 0 + x % 4096)

/-- An extent layout: the counts of the used slots cover the size, their blocks lie in the data
    region, and slots were filled in order. Slots behind the used ones may hold old extents. -/
structure FsCtx.Layout (fs : FsCtx) (inode : A1fsInode) : Prop where
  fits : inode.size < 2 ^ 31
  counted : inode.Counted
  covers : inode.size ≤ 4096 * inode.blockCount
  inside : ∀ b ∈ inode.blocks, 4096 * b < 2 ^ 31 ∧ 4096 * b + 4096 ≤ fs.dataSize
  ordered : inode.FilledInOrder

/-- `a1fs_read` returns the number of bytes up to the end of the file, and these bytes are what it
    leaves in the buffer. -/
def ReadsExactly (env : Env) (fs : FsCtx) (path : CString) (inode : A1fsInode) (n offset : Nat) : Prop :=
  ∃ buf, a1fsRead env fs path n offset = .ok ((min n (inode.size - offset) : Nat), buf) ∧
    ∀ x, buf x = if x < min n (inode.size - offset) then some (fs.fileByte inode (offset + x)) else none

/-- The requests that are answered exactly: those beyond the end of the file, those for no bytes
    whose search ends, and those that do not reach beyond the end and are served from the extent of
    slot 0 or the one behind it, or else find the same bytes elsewhere. -/
inductive AnsweredExactly (fs : FsCtx) (inode : A1fsInode) (n offset : Nat) : Prop
  | beyond (after : inode.size < offset)
  | nothing {k : Nat} (none : n = 0) (finds : Finds inode offset k)
  | served {k a : Nat} (within : offset + n ≤ inode.size) (finds : Finds inode offset k)
      (source : Source fs inode n offset k a)
      (same : k = 0 ∨ ∀ x < n, fs.data (a + x) = fs.fileByte inode (offset + x))

section Read

variable {env : Env} {fs : FsCtx} {path : CString} {inode : A1fsInode} {n offset k a i : Nat}

theorem Finds.inside (finds : Finds inode offset k) : k < 12 := by
  cases finds with
  | start => omega
  | slot some inside => exact inside

/-- A request that the search sends to slot 0 is served the bytes of the file. -/
theorem Source.first (source : Source fs inode n offset 0 a) (layout : fs.Layout inode)
    (some : 0 < n) (within : offset + n ≤ inode.size) (aligned : offset % 4096 + n ≤ 4096) {x : Nat}
    (before : x < n) : fs.data (a + x) = fs.fileByte inode (offset + x) := by
  have covers := layout.covers
  have used : 0 ≤ inode.lastUsedExtent := by
    by_contra unused
    have none : inode.usedSlots = [] := by
      rw [A1fsInode.usedSlots, Int.toNat_of_nonpos (by omega)]
      rfl
    have zero : inode.blockCount = 0 := by
      rw [A1fsInode.blockCount, none]
      rfl
    omega
  obtain ⟨rest, front, second⟩ := A1fsInode.blocks_front used
  have length : (inode.iExtent 0).blocks.length = (inode.iExtent 0).count := List.length_range'
  have near (b : Nat) (member : b ∈ inode.blocks) := (layout.inside b member).1
  have first := layout.counted 0 (A1fsInode.mem_usedSlots.mpr used)
  cases source with
  | within inExtent small room =>
    have start := near (inode.iExtent 0).start (by
      rw [front, List.mem_append, A1fsExtent.mem_blocks]
      omega)
    have block : inode.blocks.getD ((offset + x) / 4096) 0 =
        (inode.iExtent 0).start + (offset + x) / 4096 := by
      have below : (offset + x) / 4096 < (inode.iExtent 0).blocks.length := by omega
      rw [front, List.getD_append _ _ _ _ below, A1fsExtent.blocks_getD (by omega)]
    rw [FsCtx.fileByte, block, Nat.mod_eq_of_lt (by omega)]
    congr 1
    omega
  | next full small inside some' small' behind room =>
    rw [Nat.zero_add] at some' small' room ⊢
    rcases second with none | ⟨rest', next⟩
    · have count : inode.blockCount = (inode.iExtent 0).count := by
        rw [← A1fsInode.blocks_length, front, none, List.append_nil, length]
      omega
    · have start := near (inode.iExtent 1).start (by
        rw [front, next, List.mem_append, List.mem_append, A1fsExtent.mem_blocks, A1fsExtent.mem_blocks]
        omega)
      have quotient : (offset + x) / 4096 = (inode.iExtent 0).count := by omega
      have block : inode.blocks.getD ((offset + x) / 4096) 0 = (inode.iExtent 1).start := by
        have below : 0 < (inode.iExtent 1).blocks.length := by
          rw [A1fsExtent.blocks, List.length_range']
          exact some'
        rw [quotient, front, next, List.getD_append_right _ _ _ _ (by omega), length, Nat.sub_self,
          List.getD_append _ _ _ _ below, A1fsExtent.blocks_getD some']
        rfl
      rw [FsCtx.fileByte, block, Nat.mod_eq_of_lt (by omega)]
      congr 1
      omega

theorem readExtents_nothing {slots : Nat} {buf : Buffer} {first index : Int} :
    readExtents fs inode 0 slots buf k first 0 index = .ok buf := by
  cases slots with
  | zero => rfl
  | succ slots => rfl

/-- What `a1fs_read` answers for the inode that a path leads to. -/
theorem a1fsRead_ok {buf : Buffer} {r : Int} (walk : getInodeNum fs path 0 = .ok (i : Int))
    (inside : (i : Int) < fs.sb.sbInodesCount) (fits : (fs.itable i).size < 2 ^ 31)
    (short : n < 2 ^ 31) :
    a1fsRead env fs path n offset = .ok (r, buf) ↔
      ((fs.itable i).size < offset ∧ r = 0 ∧ buf = fun _ => none) ∨
      (offset ≤ (fs.itable i).size ∧ r = n ∧ ∃ k, Finds (fs.itable i) offset k ∧
        readExtents fs (fs.itable i) n (12 - k) (fun _ => none) k offset n 0 = .ok buf) := by
  have current : toInt ((fs.itable i).size : Int) = (fs.itable i).size := toInt_size fits
  have read : fs.inodeAt (i : Int) = .ok (fs.itable i) := inodeAt_ok.mpr ⟨⟨by omega, inside⟩, rfl⟩
  rw [a1fsRead, walk, ok_bind, if_neg (by omega), read, ok_bind, current]
  by_cases after : (fs.itable i).size < offset
  · rw [if_pos (by omega), pure_eq_ok, Prod.mk.injEq]
    constructor
    · rintro ⟨rfl, rfl⟩
      exact .inl ⟨after, rfl, rfl⟩
    · rintro (⟨-, rfl, rfl⟩ | ⟨reached, -⟩)
      · exact ⟨rfl, rfl⟩
      · omega
  · rw [if_neg (by omega), toInt_size (by omega), toInt_size short, bind_eq_ok]
    constructor
    · rintro ⟨⟨k, found⟩, search, returned⟩
      obtain ⟨k', same, finds⟩ := finds_iff.mp search
      cases same
      dsimp only at returned
      rw [if_neg (by omega), bind_eq_ok] at returned
      obtain ⟨filled, loop, returned⟩ := returned
      rw [pure_eq_ok, Prod.mk.injEq] at returned
      obtain ⟨rfl, rfl⟩ := returned
      exact .inr ⟨by omega, rfl, k, finds, loop⟩
    · rintro (⟨beyond, -⟩ | ⟨-, rfl, k, finds, loop⟩)
      · omega
      · refine ⟨_, finds_iff.mpr ⟨k, rfl, finds⟩, ?_⟩
        dsimp only
        rw [if_neg (by omega), loop, ok_bind]
        rfl

/-- A request inside one block is answered exactly under these conditions only. -/
theorem reads_exactly_iff (walk : getInodeNum fs path 0 = .ok (i : Int))
    (inside : (i : Int) < fs.sb.sbInodesCount) (layout : fs.Layout (fs.itable i))
    (aligned : offset % 4096 + n ≤ 4096) :
    ReadsExactly env fs path (fs.itable i) n offset ↔ AnsweredExactly fs (fs.itable i) n offset := by
  have answer (r : Int) (buf : Buffer) :
      a1fsRead env fs path n offset = .ok (r, buf) ↔ _ :=
    a1fsRead_ok walk inside layout.fits (by omega)
  constructor
  · rintro ⟨buf, returned, bytes⟩
    rcases (answer _ _).mp returned with ⟨after, -, -⟩ | ⟨reached, code, k, finds, loop⟩
    · exact .beyond after
    · by_cases none : n = 0
      · exact .nothing none finds
      · obtain ⟨a, source, rfl⟩ := (readExtents_source (by omega) aligned finds.inside layout.ordered).mp loop
        refine .served (by omega) finds source (.inr fun x before => ?_)
        have byte := bytes x
        rw [Buffer.filled, if_pos before, if_pos (by omega)] at byte
        exact Option.some.inj byte
  · intro answered
    have early (after : (fs.itable i).size < offset) :
        ReadsExactly env fs path (fs.itable i) n offset := by
      have none : min n ((fs.itable i).size - offset) = 0 := by omega
      refine ⟨fun _ => Option.none, ?_, fun x => ?_⟩
      · rw [none]
        exact (answer _ _).mpr (.inl ⟨after, rfl, rfl⟩)
      · rw [none, if_neg (by omega)]
    have nothing (none : n = 0) {k : Nat} (finds : Finds (fs.itable i) offset k) :
        ReadsExactly env fs path (fs.itable i) n offset := by
      by_cases reached : offset ≤ (fs.itable i).size
      · subst none
        refine ⟨fun _ => Option.none, ?_, fun x => ?_⟩
        · rw [Nat.zero_min]
          exact (answer _ _).mpr (.inr ⟨reached, rfl, k, finds, readExtents_nothing⟩)
        · rw [if_neg (by omega)]
      · exact early (by omega)
    cases answered with
    | beyond after => exact early after
    | nothing none finds => exact nothing none finds
    | @served k a within finds source same =>
      by_cases none : n = 0
      · exact nothing none finds
      · have whole : min n ((fs.itable i).size - offset) = n := by omega
        have loop := (readExtents_source (by omega) aligned finds.inside layout.ordered).mpr ⟨a, source, rfl⟩
        refine ⟨Buffer.filled fs.data a n, ?_, fun x => ?_⟩
        · rw [whole]
          exact (answer _ _).mpr (.inr ⟨by omega, rfl, k, finds, loop⟩)
        · rw [whole, Buffer.filled]
          split
          · rename_i before
            rcases same with first | same
            · subst first
              rw [source.first layout (by omega) within aligned before]
            · rw [same x before]
          · rfl

end Read

instance (inode : A1fsInode) : Decidable inode.FilledInOrder :=
  decidable_of_iff (∀ m ∈ List.range 11, (inode.iExtent m).count = 0 → (inode.iExtent (m + 1)).count = 0)
    ⟨fun all m below => all m (List.mem_range.mpr (by omega)),
      fun ordered m below => ordered m (by rw [List.mem_range] at below; omega)⟩

instance (fs : FsCtx) (inode : A1fsInode) : Decidable (fs.Layout inode) :=
  decidable_of_iff (inode.size < 2 ^ 31 ∧ (∀ k ∈ inode.usedSlots, 0 < (inode.iExtent k).count) ∧
    inode.size ≤ 4096 * inode.blockCount ∧
    (∀ b ∈ inode.blocks, 4096 * b < 2 ^ 31 ∧ 4096 * b + 4096 ≤ fs.dataSize) ∧ inode.FilledInOrder)
    ⟨fun ⟨a, b, c, d, e⟩ => ⟨a, b, c, d, e⟩, fun ⟨a, b, c, d, e⟩ => ⟨a, b, c, d, e⟩⟩

def shortFile : Option FsCtx :=
  runCalls (fun fs event => Documented fs event.call) quiet 10 device
    [.create pathA regularMode, .truncate pathA 100]

theorem shortFile_layout : ∃ fs ∈ shortFile,
    (1 : Int) < fs.sb.sbInodesCount ∧ fs.live 1 = true ∧ sIsreg (fs.itable 1).mode = true ∧
      fs.Layout (fs.itable 1) ∧ (fs.itable 1).size = 100 ∧
      (fs.itable 1).iExtent 0 = ⟨1, 1, 200⟩ ∧ fs.dataSize = 49152 ∧
      getInodeNum fs pathA 0 = .ok 1 := by decide +kernel

theorem reads_exactly_within : ∃ fs, shortFile = some fs ∧
    ReadsExactly quiet fs pathA (fs.itable 1) 10 5 := by
  obtain ⟨fs, run, inside, -, -, layout, size, extent, region, walk⟩ := shortFile_layout
  refine ⟨fs, run, (reads_exactly_iff walk inside layout (by decide)).mpr ?_⟩
  have finds : Finds (fs.itable 1) 5 0 := by
    refine .slot (by decide) (by decide) ?_ fun m below => by omega
    rw [extent]
    decide
  refine .served ?_ finds (.within ?_ ?_ ?_) (.inl rfl)
  · rw [size]
    decide
  · rw [extent]
    decide
  · rw [extent]
    decide
  · rw [extent, region]
    decide

/-- A request that straddles the end of the file returns all the bytes it asked for. -/
theorem reads_exactly_fails : ∃ fs, a1fs.Reaches (fun fs event => Documented fs event.call) fs ∧
    getInodeNum fs pathA 0 = .ok 1 ∧ fs.live 1 = true ∧ sIsreg (fs.itable 1).mode = true ∧
    fs.Layout (fs.itable 1) ∧ ¬ ReadsExactly quiet fs pathA (fs.itable 1) 100 50 := by
  obtain ⟨fs, run, inside, alive, regular, layout, size, -, -, walk⟩ := shortFile_layout
  refine ⟨fs, runCalls_reaches (.initial device_initial) run, walk, alive, regular, layout,
    fun correct => ?_⟩
  have answered := (reads_exactly_iff walk inside layout (by decide)).mp correct
  cases answered with
  | beyond after =>
    rw [size] at after
    omega
  | nothing none => cases none
  | served within =>
    rw [size] at within
    omega

end ExtentFs
