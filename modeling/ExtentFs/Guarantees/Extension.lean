import ExtentFs.Effects.Layout
import ExtentFs.Effects.Resize
import ExtentFs.Effects.Traces

namespace ExtentFs

open Base Base.Traced

def Action.blocks : Action → Int
  | .request blocks _ => blocks
  | _ => 0

def Action.lengths : Action → List Int
  | .tail _ length => [length]
  | .request _ leftover => [leftover]
  | .clear _ length => [length]
  | .none => []

/-- The offset in the file of the first byte of its last block. -/
def A1fsInode.lastOffset (inode : A1fsInode) : Nat := 4096 * (inode.blocks.length - 1)

/-- What the extension of a file to `size` bytes should log. -/
structure ExtendsExactly (inode : A1fsInode) (size : Nat) (log : List Action) : Prop where
  applies : .none ∉ log
  lengths : ∀ e ∈ log, ∀ n ∈ e.lengths, 0 ≤ n ∧ n ≤ 4096
  tail : ∀ a n, .tail a n ∈ log → ∀ x, a ≤ x → x < a + n →
    (inode.size : Int) ≤ inode.lastOffset + (x - 4096 * inode.lastBlock)
  blocks : (log.map Action.blocks).sum = ((size + 4095) / 4096 : Nat) - ((inode.size + 4095) / 4096 : Nat)

/-- A file with blocks that is to grow; its last block is in the data region of an image below 2 GiB. -/
structure Extensible (fs : FsCtx) (i size : Nat) : Prop where
  some : 0 < (fs.itable i).size
  larger : (fs.itable i).size < size
  small : size < 2 ^ 31
  used : 0 ≤ (fs.itable i).lastUsedExtent
  direct : (fs.itable i).lastUsedExtent < 12
  counted : 0 < ((fs.itable i).iExtent (fs.itable i).lastUsedExtent.toNat).count
  inside : 4096 * (fs.itable i).blockAfter ≤ fs.dataSize
  image : fs.dataSize ≤ 2 ^ 31

section Cases

variable {fs : FsCtx} {i size fuel : Nat} {env : Env}

theorem Extensible.blocks_pos (ext : Extensible fs i size) : 0 < (fs.itable i).blocks.length := by
  obtain ⟨front, parts⟩ := A1fsInode.blocks_back ext.used
  rw [parts, List.length_append, A1fsExtent.blocks, List.length_range']
  exact Nat.add_pos_right _ ext.counted

theorem Extensible.lastDbIndex (ext : Extensible fs i size) :
    (do FsCtx.blockOffset (← lastDbIndex (fs.itable i)) : Checked Int) =
      .ok (4096 * ((fs.itable i).lastBlock : Int)) := by
  obtain ⟨-, -, -, used, direct, counted, inside, image⟩ := ext
  have last : (fs.itable i).blockAfter = ((fs.itable i).iExtent (fs.itable i).lastUsedExtent.toNat).start +
      ((fs.itable i).iExtent (fs.itable i).lastUsedExtent.toNat).count := rfl
  have extent : (fs.itable i).extentAt (fs.itable i).lastUsedExtent.toNat =
      .ok ((fs.itable i).iExtent (fs.itable i).lastUsedExtent.toNat) := if_pos (by omega)
  have fits : toInt (((fs.itable i).iExtent (fs.itable i).lastUsedExtent.toNat).start +
      ((fs.itable i).iExtent (fs.itable i).lastUsedExtent.toNat).count - 1 : Int) = (fs.itable i).lastBlock := by
    rw [A1fsInode.lastBlock, toInt_of_fits (by omega) (by omega)]
    omega
  have place : FsCtx.blockOffset ((fs.itable i).lastBlock : Int) = .ok (4096 * ((fs.itable i).lastBlock : Int)) := by
    rw [A1fsInode.lastBlock]
    exact blockOffset_ok.mpr ⟨⟨by omega, by omega⟩, rfl⟩
  rw [ExtentFs.lastDbIndex, if_neg (by omega), extent, ok_bind, pure_bind, fits, place]

/-- The log of an extension, by its cases. -/
inductive Logged (inode : A1fsInode) (size : Nat) : List Action → Prop
  | short {rest : List Action} (below : size + inode.size % 4096 < 4096) (zeroes : ∀ e ∈ rest, e.Zeroes size) :
      Logged inode size (.request 1 size :: rest)
  | stuck (full : size + inode.size % 4096 = 4096) : Logged inode size [.none]
  | filled (full : size = inode.size + (4096 - inode.size % 4096)) :
      Logged inode size [.tail (4096 * inode.lastBlock + (inode.size % 4096 : Nat)) (4096 - (inode.size % 4096 : Nat))]
  | long {bytes : Nat} {rest : List Action} (total : size = inode.size + (4096 - inode.size % 4096) + bytes)
      (some : 0 < bytes) (zeroes : ∀ e ∈ rest, e.Zeroes (bytes % 4096 : Nat)) :
      Logged inode size (.tail (4096 * inode.lastBlock + (inode.size % 4096 : Nat)) (4096 - (inode.size % 4096 : Nat)) ::
        .request ((bytes + 4095) / 4096 : Nat) (bytes % 4096 : Nat) :: rest)
  | within {bytes : Nat} {rest : List Action} (total : size + bytes = inode.size + (4096 - inode.size % 4096))
      (some : 0 < bytes) (beyond : 4096 < size + inode.size % 4096) (zeroes : ∀ e ∈ rest, e.Zeroes (-bytes)) :
      Logged inode size (.tail (4096 * inode.lastBlock + (inode.size % 4096 : Nat)) (4096 - (inode.size % 4096 : Nat)) ::
        .request 1 (-bytes) :: rest)

theorem Extensible.logged (ext : Extensible fs i size) :
    Logged (fs.itable i) size (extendFileLogged env fuel fs i size).log := by
  have last := ext.lastDbIndex
  obtain ⟨some, larger, small, -, -, counted, inside, image⟩ := ext
  have current : toInt (fs.itable i).size = (fs.itable i).size := toInt_of_fits (by omega) (by omega)
  have quotient : ((fs.itable i).size : Int).tdiv 4096 = ((fs.itable i).size / 4096 : Nat) :=
    (Int.ofNat_tdiv (fs.itable i).size 4096).symm
  have leftover : ((fs.itable i).size : Int) - ((fs.itable i).size / 4096 : Nat) * 4096 =
      ((fs.itable i).size % 4096 : Nat) := by
    omega
  rw [extendFileLogged]
  dsimp only
  rw [current, quotient, leftover]
  by_cases below : (size : Int) < 4096 - ((fs.itable i).size % 4096 : Nat)
  · rw [if_pos below, log_bind_quiet]
    · have request : blockRequest size = .ok (((size + 4095) / 4096 : Nat), (size % 4096 : Nat)) :=
        blockRequest_nat small
      have one : (size + 4095) / 4096 = 1 := by omega
      have all : size % 4096 = size := by omega
      rw [one, all] at request
      obtain ⟨rest, log, zeroes⟩ : ∃ rest, (truncateHelperLogged fuel fs i size env.now).log = _ :: rest ∧ _ :=
        truncateHelperLogged_log request
      rw [log]
      exact .short (by omega) zeroes
    · intro helped
      split <;> rfl
  · rw [if_neg below]
    by_cases above : (size : Int) > 4096 - ((fs.itable i).size % 4096 : Nat)
    · obtain ⟨fs1, clear⟩ : ∃ fs1, fs.clearBytes
          (4096 * ((fs.itable i).lastBlock : Int) + ((fs.itable i).size % 4096 : Nat))
          (4096 - ((fs.itable i).size % 4096 : Nat)) = .ok fs1 := by
        refine ⟨_, clearBytes_ok.mpr ⟨⟨by omega, by omega, ?_⟩, rfl⟩⟩
        rw [A1fsInode.lastBlock]
        have pos : 0 < (fs.itable i).blockAfter := Nat.add_pos_right _ counted
        omega
      have growth : toInt ((size : Int) - (fs.itable i).size) = size - (fs.itable i).size :=
        toInt_of_fits (by omega) (by omega)
      obtain ⟨more, rest, remaining⟩ : ∃ more : Int,
          intArith ((size : Int) - (fs.itable i).size - (4096 - ((fs.itable i).size % 4096 : Nat))) = .ok more ∧
            more = (size : Int) - (fs.itable i).size - (4096 - ((fs.itable i).size % 4096 : Nat)) :=
        ⟨_, intArith_ok.mpr ⟨⟨by omega, by omega⟩, rfl⟩, rfl⟩
      rw [if_pos above, last, lift_bind, tell_bind, clear, lift_bind, growth, rest, lift_bind]
      clear clear growth rest last current quotient
      by_cases done : more = 0
      · rw [if_neg (not_not.mpr done), pure_andThen, if_neg (by simp)]
        exact .filled (by omega)
      · rw [if_pos done, log_bind_quiet]
        · by_cases sign : 0 < more
          · obtain ⟨bytes, rfl⟩ : ∃ bytes : Nat, more = bytes := ⟨more.toNat, by omega⟩
            have request : blockRequest (bytes : Int) = .ok (((bytes + 4095) / 4096 : Nat), (bytes % 4096 : Nat)) :=
              blockRequest_nat (by omega)
            obtain ⟨rest, log, zeroes⟩ : ∃ rest,
                (truncateHelperLogged fuel fs1 i bytes env.now).log = _ :: rest ∧ _ :=
              truncateHelperLogged_log request
            rw [log]
            exact .long (by omega) (by omega) zeroes
          · obtain ⟨bytes, rfl⟩ : ∃ bytes : Nat, more = -bytes := ⟨(-more).toNat, by omega⟩
            have request : blockRequest (-(bytes : Int)) = .ok (1, -bytes) :=
              blockRequest_negative (by omega) (by omega)
            obtain ⟨rest, log, zeroes⟩ : ∃ rest,
                (truncateHelperLogged fuel fs1 i (-bytes) env.now).log = _ :: rest ∧ _ :=
              truncateHelperLogged_log request
            rw [log]
            exact .within (by omega) (by omega) (by omega) zeroes
        · intro helped
          split <;> rfl
    · rw [if_neg above]
      exact .stuck (by omega)

end Cases

section Exactly

variable {inode : A1fsInode} {size : Nat} {leftover : Int} {e : Action} {log rest : List Action}

theorem Action.Zeroes.blocks (zeroes : e.Zeroes leftover) : e.blocks = 0 := by
  cases e with
  | clear => rfl
  | tail => cases zeroes
  | request => cases zeroes
  | none => cases zeroes

theorem Action.Zeroes.lengths (zeroes : e.Zeroes leftover) : ∀ n ∈ e.lengths, n = 4096 ∨ n = leftover := by
  cases e with
  | clear address length =>
    intro n member
    rw [List.mem_singleton.mp member]
    exact zeroes
  | tail => cases zeroes
  | request => cases zeroes
  | none => cases zeroes

theorem zeroes_blocks (zeroes : ∀ e ∈ rest, e.Zeroes leftover) : (rest.map Action.blocks).sum = 0 := by
  induction rest with
  | nil => rfl
  | cons e rest ih =>
    rw [List.map_cons, List.sum_cons, (zeroes e List.mem_cons_self).blocks,
      ih fun e member => zeroes e (List.mem_cons_of_mem _ member)]
    rfl

/-- A log that starts with the zeroing of the last block: what has to hold of this and of the rest. -/
theorem extendsExactly_tail (some : 0 < inode.blocks.length) (applies : .none ∉ rest)
    (other : ∀ a n, .tail a n ∉ rest) :
    ExtendsExactly inode size (.tail (4096 * inode.lastBlock + (inode.size % 4096 : Nat))
        (4096 - (inode.size % 4096 : Nat)) :: rest) ↔
      inode.size / 4096 < inode.blocks.length ∧ (∀ e ∈ rest, ∀ n ∈ e.lengths, 0 ≤ n ∧ n ≤ 4096) ∧
        (rest.map Action.blocks).sum = ((size + 4095) / 4096 : Nat) - ((inode.size + 4095) / 4096 : Nat) := by
  constructor
  · rintro ⟨-, lengths, tail, blocks⟩
    have first := tail _ _ List.mem_cons_self (4096 * inode.lastBlock + (inode.size % 4096 : Nat)) (le_refl _)
      (by omega)
    rw [A1fsInode.lastOffset] at first
    refine ⟨by omega, fun e member => lengths e (List.mem_cons_of_mem _ member), ?_⟩
    rw [List.map_cons, List.sum_cons] at blocks
    rw [← blocks]
    exact (Int.zero_add _).symm
  · rintro ⟨covered, lengths, blocks⟩
    refine ⟨?_, ?_, ?_, ?_⟩
    · intro member
      rcases List.mem_cons.mp member with first | later
      · cases first
      · exact applies later
    · intro e member n length
      rcases List.mem_cons.mp member with rfl | later
      · rw [List.mem_singleton.mp length]
        omega
      · exact lengths e later n length
    · intro a n member x low high
      rcases List.mem_cons.mp member with first | later
      · cases first
        rw [A1fsInode.lastOffset]
        omega
      · exact absurd later (other a n)
    · rw [List.map_cons, List.sum_cons, blocks]
      exact Int.zero_add _

theorem request_rest {blocks : Int} (zeroes : ∀ e ∈ rest, e.Zeroes leftover) :
    .none ∉ .request blocks leftover :: rest ∧ (∀ a n, .tail a n ∉ .request blocks leftover :: rest) ∧
      ((.request blocks leftover :: rest).map Action.blocks).sum = blocks ∧
      ((∀ e ∈ .request blocks leftover :: rest, ∀ n ∈ e.lengths, 0 ≤ n ∧ n ≤ 4096) ↔
        0 ≤ leftover ∧ leftover ≤ 4096) := by
  refine ⟨?_, ?_, ?_, ?_⟩
  · intro member
    rcases List.mem_cons.mp member with first | later
    · cases first
    · exact zeroes _ later
  · intro a n member
    rcases List.mem_cons.mp member with first | later
    · cases first
    · exact zeroes _ later
  · rw [List.map_cons, List.sum_cons, zeroes_blocks zeroes]
    exact Int.add_zero _
  · constructor
    · intro lengths
      exact lengths _ List.mem_cons_self leftover List.mem_cons_self
    · intro fits e member n length
      rcases List.mem_cons.mp member with rfl | later
      · rw [List.mem_singleton.mp length]
        exact fits
      · rcases (zeroes e later).lengths n length with rfl | rfl
        · omega
        · exact fits

theorem Logged.exactly_iff (logged : Logged inode size log) (pos : 0 < inode.size) (larger : inode.size < size)
    (some : 0 < inode.blocks.length) : ExtendsExactly inode size log ↔
      inode.size % 4096 ≠ 0 ∧ 4096 * (inode.size / 4096 + 1) ≤ size ∧
        inode.size / 4096 < inode.blocks.length := by
  cases logged with
  | short below zeroes =>
    constructor
    · rintro ⟨-, -, -, blocks⟩
      rw [(request_rest zeroes).2.2.1] at blocks
      omega
    · omega
  | stuck full =>
    constructor
    · rintro ⟨applies, -, -, -⟩
      exact absurd List.mem_cons_self applies
    · omega
  | filled full =>
    rw [extendsExactly_tail some (by simp) (by simp)]
    simp only [List.not_mem_nil, false_implies, implies_true, List.map_nil, List.sum_nil, true_and]
    omega
  | long total more zeroes =>
    obtain ⟨applies, other, blocks, lengths⟩ := request_rest zeroes
    rw [extendsExactly_tail some applies other, blocks, lengths]
    omega
  | within total more beyond zeroes =>
    obtain ⟨applies, other, blocks, lengths⟩ := request_rest zeroes
    rw [extendsExactly_tail some applies other, blocks, lengths]
    omega

end Exactly

/-- A file is extended as its sizes ask for if its last block is partly used and the new size fills it. -/
theorem extends_exactly_iff {fs : FsCtx} {path : CString} {env : Env} {fuel i size : Nat}
    (walk : getInodeNum fs path 0 = .ok (i : Int)) (exists_ : (i : Int) < fs.sb.sbInodesCount)
    (ext : Extensible fs i size) :
    (extendFileLogged env fuel fs i size).out = a1fsTruncate env fuel fs path size ∧
      (ExtendsExactly (fs.itable i) size (extendFileLogged env fuel fs i size).log ↔
        (fs.itable i).size % 4096 ≠ 0 ∧ 4096 * ((fs.itable i).size / 4096 + 1) ≤ size ∧
          (fs.itable i).size / 4096 < (fs.itable i).blocks.length) := by
  refine ⟨?_, ext.logged.exactly_iff ext.some ext.larger ext.blocks_pos⟩
  have small := ext.small
  have larger := ext.larger
  have used := ext.used
  have current : toInt (fs.itable i).size = (fs.itable i).size := toInt_of_fits (by omega) (by omega)
  have read : fs.inodeAt i = .ok (fs.itable i) := inodeAt_ok.mpr ⟨⟨by omega, exists_⟩, rfl⟩
  rw [extendFileLogged_out, a1fsTruncate, walk, ok_bind, read, ok_bind]
  dsimp only
  rw [current, if_neg (by omega), if_neg (by omega), if_pos (by omega), Int.toNat_natCast]

/-- A file of one block and of some bytes, 4096 or fewer. -/
def sizedRun (bytes : Int) : Option FsCtx :=
  runCalls (fun fs event => Documented fs event.call) quiet 10 device
    [.create pathA regularMode, .truncate pathA bytes]

instance (fs : FsCtx) (i size : Nat) : Decidable (Extensible fs i size) :=
  decidable_of_iff (0 < (fs.itable i).size ∧ (fs.itable i).size < size ∧ size < 2 ^ 31 ∧
      0 ≤ (fs.itable i).lastUsedExtent ∧ (fs.itable i).lastUsedExtent < 12 ∧
      0 < ((fs.itable i).iExtent (fs.itable i).lastUsedExtent.toNat).count ∧
      4096 * (fs.itable i).blockAfter ≤ fs.dataSize ∧ fs.dataSize ≤ 2 ^ 31)
    ⟨fun ⟨a, b, c, d, e, f, g, h⟩ => ⟨a, b, c, d, e, f, g, h⟩,
      fun h => ⟨h.some, h.larger, h.small, h.used, h.direct, h.counted, h.inside, h.image⟩⟩

theorem extends_exactly_iff_run : ∃ fs ∈ sizedRun 100,
    ExtendsExactly (fs.itable 1) 5000 (extendFileLogged quiet 10 fs 1 5000).log := by
  have ready : ∃ fs ∈ sizedRun 100, getInodeNum fs pathA 0 = .ok 1 ∧ (1 : Int) < fs.sb.sbInodesCount ∧
      Extensible fs 1 5000 ∧ (fs.itable 1).size % 4096 ≠ 0 ∧ 4096 * ((fs.itable 1).size / 4096 + 1) ≤ 5000 ∧
      (fs.itable 1).size / 4096 < (fs.itable 1).blocks.length := by
    decide +kernel
  obtain ⟨fs, run, walk, exists_, ext, usual⟩ := ready
  exact ⟨fs, run, (extends_exactly_iff walk exists_ ext).2.mpr usual⟩

/-- A file that fills its block loses it when it grows: the whole block is zeroed. -/
theorem extends_exactly_fails : ∃ fs ∈ sizedRun 4096, getInodeNum fs pathA 0 = .ok 1 ∧
    Extensible fs 1 5000 ∧ ¬ ExtendsExactly (fs.itable 1) 5000 (extendFileLogged quiet 10 fs 1 5000).log := by
  have ready : ∃ fs ∈ sizedRun 4096, getInodeNum fs pathA 0 = .ok 1 ∧ (1 : Int) < fs.sb.sbInodesCount ∧
      Extensible fs 1 5000 ∧ (fs.itable 1).size % 4096 = 0 := by
    decide +kernel
  obtain ⟨fs, run, walk, exists_, ext, whole⟩ := ready
  refine ⟨fs, run, walk, ext, fun exactly => ?_⟩
  exact ((extends_exactly_iff walk exists_ ext).2.mp exactly).1 whole

end ExtentFs
