import ExtentFs.Base.Regions
import ExtentFs.Effects.Calls
import ExtentFs.Effects.Entries
import ExtentFs.Effects.Layout
import ExtentFs.Effects.Listing
import ExtentFs.Effects.Walks

namespace ExtentFs

open Base Base.Bytes

/-- A component that does not fit the name field of an entry. -/
def HasLongName (path : CString) : Prop := ∃ token ∈ strtok path.bytes, a1fsNameMax ≤ token.length

instance (path : CString) : Decidable (HasLongName path) :=
  inferInstanceAs (Decidable (∃ token ∈ strtok path.bytes, a1fsNameMax ≤ token.length))

/-- The block whose entries are set up when a directory gets a block: the first of its last extent when this is
    added to, else the block found. -/
def FsCtx.setUpBlock (fs : FsCtx) (d first : Nat) : Nat :=
  if fs.attaches d 1 then ((fs.itable d).iExtent (fs.itable d).lastUsedExtent.toNat).start else first

/-- The slot for a new entry of a directory: its first free one, or the first of the block that is set up. -/
inductive FsCtx.Chooses (fs : FsCtx) (d : Nat) : Nat → Prop
  | free {addr : Nat} (found : fs.findIno (fs.itable d) (-1) = .ok (some addr)) : Chooses fs d addr
  | fresh {first : Nat} (full : fs.findIno (fs.itable d) (-1) = .ok none)
      (found : getAvailableBit fs.sb fs.blockBits .data 1 = .ok (first : Int)) :
      Chooses fs d (4096 * fs.setUpBlock d first)

/-- The name and its terminator go into the name field of the slot at `addr`. No other slot that a directory has
    had before changes, and no byte of another block. -/
structure FillsSlot (fs fs' : FsCtx) (addr : Nat) (name : List Byte) : Prop where
  within : name.length + 1 ≤ a1fsNameMax
  written : ∀ k < name.length + 1, fs'.data (addr + 4 + k) = (name ++ [0#8]).getD k 0
  others : ∀ e, fs.live e = true → sIsdir (fs.itable e).mode = true →
    ∀ a ∈ (fs.itable e).entries, a ≠ addr → fs.SameEntry fs' a
  beyond : ∀ x, x / 4096 ≠ addr / 4096 → fs'.data x = fs.data x

/-- What a call that makes an entry does to the data region: nothing, or it fills the slot chosen in the directory
    that the walk to the name ends in. The walk is made when the new inode has been taken. -/
def StaysInSlot (fs : FsCtx) (env : Env) (call : Call) (fs' : FsCtx) : Prop :=
  fs'.data = fs.data ∨ ∃ mode ∈ call.newMode, ∃ ino d addr : Nat,
    getAvailableBit fs.sb fs.inodeBits .inode (-1) = .ok (ino : Int) ∧
    getInodeNum (fs.takeInode ino mode env.now) call.path 1 = .ok (d : Int) ∧
    (fs.takeInode ino mode env.now).Chooses d addr ∧ FillsSlot fs fs' addr (strrchr call.path.bytes)

/-- Long names are refused by `getattr`, and after it has answered that there is no such path an entry made for
    it keeps to its slot. -/
structure RefusesLong (fs : FsCtx) (path : CString) : Prop where
  answers : (∃ st, a1fsGetattr fs path = .ok (-eNameTooLong, st)) ↔
    a1fsPathMax ≤ path.bytes.length ∨ HasLongName path
  stays : ∀ st, a1fsGetattr fs path = .ok (-eNoEnt, st) → ∀ env fuel call fs' r, call.newMode.isSome = true →
    call.path = path → call.exec env fuel fs = .ok (fs', r) → StaysInSlot fs env call fs'

/-- No directory has a used slot in the block behind its first one. -/
def FsCtx.FreeBehindFirst (fs : FsCtx) (block : Nat) : Prop :=
  ∀ e, fs.live e = true → sIsdir (fs.itable e).mode = true → block ∈ (fs.itable e).blocks →
    ∀ k ∈ List.range' 1 15, fs.dentryIno (4096 * block + 256 * k) = -1

/-- A directory has a free slot or finds no block, or no directory has a used slot behind the first one of the
    block that is set up. The block of a directory without a free slot holds sixteen. -/
def FsCtx.SparesSlots (fs : FsCtx) (d : Nat) (taken : FsCtx) : Prop :=
  taken.findIno (taken.itable d) (-1) = .ok none →
    ∀ first : Nat, getAvailableBit taken.sb taken.blockBits .data 1 = .ok (first : Int) →
      fs.FreeBehindFirst (taken.setUpBlock d first)

/-- The condition on the directory of a new entry. -/
def SparesSlots (fs : FsCtx) (env : Env) (call : Call) : Prop :=
  ∀ mode ∈ call.newMode, ∀ ino d : Nat, getAvailableBit fs.sb fs.inodeBits .inode (-1) = .ok (ino : Int) →
    getInodeNum (fs.takeInode ino mode env.now) call.path 1 = .ok (d : Int) →
      fs.SparesSlots d (fs.takeInode ino mode env.now)

section Slots

variable {fs fs' : FsCtx} {d block s a addr : Nat} {inode : A1fsInode} {now : Timespec} {name : List Byte}

theorem entries_find_first {blocks : List Nat} {P : Nat → Bool} (member : s ∈ blocks)
    (others : ∀ b ∈ blocks, b ≠ s → ∀ a ∈ blockEntries b, P a = false) (first : P (4096 * s) = true) :
    (blocks.flatMap blockEntries).find? P = some (4096 * s) := by
  induction blocks with
  | nil => cases member
  | cons b rest ih =>
    rw [List.flatMap_cons, List.find?_append]
    by_cases here : b = s
    · subst here
      have head : blockEntries b = 4096 * b :: (blockEntries b).tail := rfl
      rw [head, List.find?_cons, first]
      rfl
    · have none : (blockEntries b).find? P = none := by
        rw [List.find?_eq_none]
        intro a inside used
        rw [others b (by simp) here a inside] at used
        cases used
      rw [none, Option.none_or]
      exact ih ((List.mem_cons.mp member).resolve_left (Ne.symm here)) fun b inside => others b (by simp [inside])

theorem Growth.setUp (growth : Growth fs d 1 now block inode) :
    ∃ first : Nat, getAvailableBit fs.sb fs.blockBits .data 1 = .ok (first : Int) ∧
      (inode.iExtent inode.lastUsedExtent.toNat).start = fs.setUpBlock d first := by
  cases growth with
  | append found answer =>
    refine ⟨block, found, ?_⟩
    rw [FsCtx.setUpBlock, answer.attaches, if_neg (by decide), A1fsInode.appendExtent]
    dsimp only
    rw [A1fsInode.setExtent_self]
  | @attach start found taken =>
    refine ⟨start, found, ?_⟩
    rw [FsCtx.setUpBlock, taken, if_pos rfl]
    change (((fs.itable d).setExtent (fs.itable d).lastUsedExtent.toNat _).iExtent
      (fs.itable d).lastUsedExtent.toNat).start = _
    rw [A1fsInode.setExtent_self]

/-- The first free entry of a directory that had none is the first of the block that has been set up. -/
theorem Growth.first_free (growth : Growth fs d 1 now block inode) {data : Bytes}
    (full : ∀ a ∈ (fs.itable d).entries, (fs.data.word32 a).toInt ≠ -1)
    (setUp : data = FsCtx.freeEntries fs.data (inode.iExtent inode.lastUsedExtent.toNat).start) :
    (inode.entries.find? fun a => (data.word32 a).toInt = -1) =
      some (4096 * (inode.iExtent inode.lastUsedExtent.toNat).start) := by
  have member := growth.first_mem (by omega)
  have blocks := growth.blocks
  generalize (inode.iExtent inode.lastUsedExtent.toNat).start = s at member setUp ⊢
  have fresh : decide ((data.word32 (4096 * s)).toInt = -1) = true := by
    rw [setUp, freeEntries_ino (mem_blockEntries.mpr ⟨0, by omega, by omega⟩)]
    decide
  have used (b : Nat) (old : b ∈ (fs.itable d).blocks) (other : b ≠ s) (a : Nat) (inside : a ∈ blockEntries b) :
      decide ((data.word32 a).toInt = -1) = false := by
    have kept : data.word32 a = fs.data.word32 a := by
      obtain ⟨k, bound, rfl⟩ := mem_blockEntries.mp inside
      rw [setUp]
      exact word32_congr fun i low => freeEntries_outside (by omega)
    rw [kept]
    exact decide_eq_false (full a (A1fsInode.mem_entries.mpr ⟨b, old, inside⟩))
  rw [A1fsInode.entries]
  by_cases old : s ∈ (fs.itable d).blocks
  · rw [blocks, List.flatMap_append, List.find?_append, entries_find_first old used fresh, Option.some_or]
  · refine entries_find_first member (fun b inside other => ?_) fresh
    rw [blocks, List.mem_append] at inside
    rcases inside with before | new
    · exact used b before other
    · rw [blocks, List.mem_append] at member
      have same : b = s := by
        have mine := member.resolve_left old
        rw [List.mem_range'_1] at mine new
        omega
      exact absurd same other

end Slots

section Names

variable {fs fs' : FsCtx} {path : CString} {d ino addr : Nat} {name : List Byte} {now : Timespec} {env : Env}

/-- The length of the path is the only one that is tested. -/
theorem getattr_refuses : (∃ st, a1fsGetattr fs path = .ok (-eNameTooLong, st)) ↔
    a1fsPathMax ≤ path.bytes.length := by
  unfold a1fsGetattr
  constructor
  · rintro ⟨st, answer⟩
    by_contra fits
    rw [if_neg fits] at answer
    split at answer
    · cases answer
    · rw [bind_eq_ok] at answer
      obtain ⟨curr, -, answer⟩ := answer
      split at answer
      · cases answer
      · rw [bind_eq_ok] at answer
        obtain ⟨inode, -, answer⟩ := answer
        cases answer
  · intro long
    rw [if_pos long]
    exact ⟨none, rfl⟩

theorem getattr_missing {st : Option Stat} (answer : a1fsGetattr fs path = .ok (-eNoEnt, st)) :
    path.bytes.length < a1fsPathMax ∧ path.bytes.head? = some slash := by
  unfold a1fsGetattr at answer
  split at answer
  · cases answer
  · rename_i short
    split at answer
    · cases answer
    · rename_i absolute
      exact ⟨by omega, not_not.mp absolute⟩

theorem strrchr_short (absolute : path.bytes.head? = some slash) (short : ¬ HasLongName path) :
    (strrchr path.bytes).length < a1fsNameMax := by
  have has : slash ∈ path.bytes := List.mem_of_mem_head? absolute
  by_cases trailing : path.bytes.getLast? = some slash
  · obtain ⟨plain, before, parts⟩ := strrchr_split has
    have empty : strrchr path.bytes = [] := by
      cases name : strrchr path.bytes with
      | nil => rfl
      | cons c cs =>
        rw [name] at parts plain
        have last : (c :: cs).getLast? = some slash := by
          rw [parts] at trailing
          simpa using trailing
        exact absurd (List.mem_of_mem_getLast? last) plain
    rw [empty]
    decide
  · obtain ⟨before, -, tokens⟩ := strtok_split has trailing
    by_contra long
    exact short ⟨strrchr path.bytes, by rw [tokens]; simp, by omega⟩

/-- What a new entry changes beside the block that is set up for it. -/
theorem writeDentry_slot {fs1 : FsCtx} (write : writeDentry fs1 d ino name addr now = .ok fs')
    (short : name.length < a1fsNameMax) :
    (∀ k < name.length + 1, fs'.data (addr + 4 + k) = (name ++ [0#8]).getD k 0) ∧
      ∀ x, x < addr ∨ addr + 256 ≤ x → fs'.data x = fs1.data x := by
  obtain ⟨-, rfl⟩ := writeDentry_ok write
  have bound : name.length < 252 := short
  have length : (name ++ [0#8]).length = name.length + 1 := List.length_append
  refine ⟨fun k low => ?_, fun x outside => ?_⟩
  · show ((fs1.data.store (addr + 4) (name ++ [0#8])).set32 addr (BitVec.ofNat 32 ino)) (addr + 4 + k) = _
    have place : k < (name ++ [0#8]).length := by omega
    rw [set32_outside _ (by omega), store_inside place, List.getD_eq_getElem _ _ place]
  · show ((fs1.data.store (addr + 4) (name ++ [0#8])).set32 addr (BitVec.ofNat 32 ino)) x = fs1.data x
    rw [set32_outside _ (by omega), store_outside (by omega)]

theorem entry_aligned {inode : A1fsInode} {a : Nat} (member : a ∈ inode.entries) : 256 ∣ a := by
  obtain ⟨b, -, inside⟩ := A1fsInode.mem_entries.mp member
  obtain ⟨k, -, rfl⟩ := mem_blockEntries.mp inside
  omega

/-- An entry that goes to a free slot leaves the others alone. -/
theorem writeDentry_fills {fs1 : FsCtx} (data : fs1.data = fs.data)
    (found : fs1.findIno (fs1.itable d) (-1) = .ok (some addr))
    (write : writeDentry fs1 d ino name addr now = .ok fs') (short : name.length < a1fsNameMax) :
    FillsSlot fs fs' addr name := by
  obtain ⟨written, kept⟩ := writeDentry_slot write short
  have mine := entry_aligned (List.mem_of_find?_eq_some (findIno_ok found).symm)
  refine ⟨short, written, fun e _ _ a member other k bound => ?_, fun x beyond => ?_⟩
  · have aligned := entry_aligned member
    rw [kept _ (by omega), data]
  · rw [kept _ (by omega), data]

/-- One that goes to a block that is set up does, but for the used slots in that block. -/
theorem setUp_spares {s : Nat} {data : Bytes} (setUp : data = FsCtx.freeEntries fs.data s)
    (kept : ∀ x, x < 4096 * s ∨ 4096 * s + 256 ≤ x → fs'.data x = data x) :
    (∀ e, fs.live e = true → sIsdir (fs.itable e).mode = true →
      ∀ a ∈ (fs.itable e).entries, a ≠ 4096 * s → fs.SameEntry fs' a) ↔ fs.FreeBehindFirst s := by
  have fresh (k : Nat) (bound : k < 16) : data.word32 (4096 * s + 256 * k) = -1#32 := by
    rw [setUp]
    exact freeEntries_ino (mem_blockEntries.mpr ⟨k, bound, rfl⟩)
  constructor
  · intro others e alive dir member k inside
    rw [List.mem_range'_1] at inside
    have entry : 4096 * s + 256 * k ∈ (fs.itable e).entries :=
      A1fsInode.mem_entries.mpr ⟨s, member, mem_blockEntries.mpr ⟨k, by omega, rfl⟩⟩
    have same := others e alive dir _ entry (by omega)
    have word : fs'.data.word32 (4096 * s + 256 * k) = data.word32 (4096 * s + 256 * k) :=
      word32_congr fun i low => kept _ (by omega)
    rw [← same.dentryIno, FsCtx.dentryIno, word, fresh k (by omega)]
    decide
  · intro spares e alive dir a entry other j bound
    obtain ⟨b, member, inside⟩ := A1fsInode.mem_entries.mp entry
    obtain ⟨k, low, rfl⟩ := mem_blockEntries.mp inside
    rw [kept _ (by omega), setUp]
    by_cases here : b = s
    · subst here
      by_cases name : 4 ≤ j
      · exact freeEntries_name (by omega)
      · have free := spares e alive dir member k (by rw [List.mem_range'_1]; omega)
        have word : fs.data.word32 (4096 * b + 256 * k) = -1#32 := by
          apply BitVec.eq_of_toInt_eq
          rw [FsCtx.dentryIno] at free
          rw [free]
          decide
        have same : (FsCtx.freeEntries fs.data b).word32 (4096 * b + 256 * k) =
            fs.data.word32 (4096 * b + 256 * k) := by rw [word, ← setUp, fresh k low]
        exact byte_of_word32 same (by omega)
    · exact freeEntries_outside (by omega)

theorem FsCtx.Chooses.unique {other : Nat} (chooses : fs.Chooses d addr) (again : fs.Chooses d other) :
    addr = other := by
  cases chooses with
  | free found =>
    cases again with
    | free found' =>
      cases found.symm.trans found'
      rfl
    | fresh full => cases found.symm.trans full
  | fresh full found =>
    cases again with
    | free found' => cases full.symm.trans found'
    | fresh _ found' =>
      cases found.symm.trans found'
      rfl

end Names

section Calls

variable {fs fs' : FsCtx} {call : Call} {env : Env} {mode : BitVec 32} {ino d addr : Nat}
  (new : call.newMode = some mode) (short : (strrchr call.path.bytes).length < a1fsNameMax)
  (free : getAvailableBit fs.sb fs.inodeBits .inode (-1) = .ok (ino : Int))
  (walk : getInodeNum (fs.takeInode ino mode env.now) call.path 1 = .ok (d : Int))

include new free walk

theorem staysInSlot_iff (chooses : (fs.takeInode ino mode env.now).Chooses d addr) :
    StaysInSlot fs env call fs' ↔ fs'.data = fs.data ∨ FillsSlot fs fs' addr (strrchr call.path.bytes) := by
  refine or_congr_right ⟨?_, fun fills => ⟨mode, new, ino, d, addr, free, walk, chooses, fills⟩⟩
  rintro ⟨mode', new', ino', d', addr', free', walk', chooses', fills⟩
  cases new.symm.trans new'
  cases free.symm.trans free'
  cases walk.symm.trans walk'
  rw [chooses.unique chooses']
  exact fills

theorem sparesSlots_iff :
    SparesSlots fs env call ↔ fs.SparesSlots d (fs.takeInode ino mode env.now) := by
  constructor
  · intro spares
    exact spares mode new ino d free walk
  · intro spares mode' new' ino' d' free' walk'
    cases new.symm.trans new'
    cases free.symm.trans free'
    cases walk.symm.trans walk'
    exact spares

include short

/-- An entry for which a block is set up keeps to the first slot of it exactly when no used slot is lost. -/
theorem setUp_staysInSlot {block : Nat} {inode : A1fsInode} {fs2 : FsCtx}
    (full : (fs.takeInode ino mode env.now).findIno ((fs.takeInode ino mode env.now).itable d) (-1) = .ok none)
    (growth : Growth (fs.takeInode ino mode env.now) d 1 env.now block inode)
    (set : fs2 = ((fs.takeInode ino mode env.now).grown d inode .directory).flipBlocks [block] 1)
    (found : fs2.findIno (fs2.itable d) (-1) = .ok (some addr))
    (write : writeDentry fs2 d ino (strrchr call.path.bytes) addr env.now = .ok fs') :
    StaysInSlot fs env call fs' ↔ fs.SparesSlots d (fs.takeInode ino mode env.now) := by
  obtain ⟨first, search, start⟩ := growth.setUp
  have table : fs2.itable d = inode := by
    rw [set]
    exact if_pos rfl
  have setUp : fs2.data = FsCtx.freeEntries fs.data (inode.iExtent inode.lastUsedExtent.toNat).start := by
    rw [set]
    rfl
  have chosen := growth.first_free (findIno_none full) setUp
  have place := findIno_ok found
  rw [table] at place
  rw [start] at setUp chosen
  obtain rfl : addr = 4096 * (fs.takeInode ino mode env.now).setUpBlock d first :=
    Option.some.inj (place.trans chosen)
  obtain ⟨written, kept⟩ := writeDentry_slot write short
  have spares := setUp_spares setUp kept
  have asks : fs.SparesSlots d (fs.takeInode ino mode env.now) ↔
      fs.FreeBehindFirst ((fs.takeInode ino mode env.now).setUpBlock d first) := by
    constructor
    · intro all
      exact all full first search
    · intro one _ first' search'
      cases search.symm.trans search'
      exact one
  rw [staysInSlot_iff new free walk (.fresh full search), asks, ← spares]
  constructor
  · rintro (same | fills)
    · intro e _ _ a _ _ k _
      rw [same]
    · exact fills.others
  · intro others
    refine .inr ⟨short, written, others, fun x beyond => ?_⟩
    rw [kept x (by omega), setUp, freeEntries_outside (by omega)]

theorem addDentry_staysInSlot {added : Int}
    (add : addDentry (fs.takeInode ino mode env.now) d ino (strrchr call.path.bytes) env.now = .ok (fs', added)) :
    StaysInSlot fs env call fs' ↔ fs.SparesSlots d (fs.takeInode ino mode env.now) := by
  have data : (fs.takeInode ino mode env.now).data = fs.data := rfl
  rcases addDentry_ok add with ⟨-, rfl, full, first, negative, none⟩ | ⟨-, fs2, addr, grown, found, write⟩
  · refine iff_of_true (.inl rfl) fun _ first' found => ?_
    cases none.symm.trans found
    omega
  · rcases grown with ⟨unused, rfl⟩ | ⟨full, block, inode, growth, -, set⟩
    · have fills := writeDentry_fills data found write short
      refine iff_of_true ?_ fun full => absurd full unused
      exact (staysInSlot_iff new free walk (.free found)).mpr (.inr fills)
    · exact setUp_staysInSlot new short free walk full growth set found write

end Calls

section Paths

variable {fs fs' : FsCtx} {path : CString} {env : Env} {call : Call}

/-- A new entry keeps to its slot exactly when a block that is set up for it holds no used slot. -/
theorem newEntry_staysInSlot {mode : BitVec 32} {noParent r : Int} (new : call.newMode = some mode)
    (short : (strrchr call.path.bytes).length < a1fsNameMax)
    (h : newEntry env fs call.path mode noParent = .ok (fs', r)) :
    StaysInSlot fs env call fs' ↔ SparesSlots fs env call := by
  rcases newEntry_ok h with ⟨-, rfl, none⟩ | ⟨ino, free, taken, rfl, ⟨-, rfl, p, negative, walk⟩ |
    ⟨d, walk, -, added, add, -⟩⟩
  · refine iff_of_true (.inl rfl) fun _ _ ino d free => ?_
    cases none.symm.trans free
  · refine iff_of_true (.inl rfl) fun mode' new' ino' d' free' walk' => ?_
    cases new.symm.trans new'
    cases free.symm.trans free'
    cases walk.symm.trans walk'
    omega
  · rw [sparesSlots_iff new free walk]
    exact addDentry_staysInSlot new short free walk add

theorem Call.exec_staysInSlot {fuel : Nat} {r : Int} (new : call.newMode.isSome = true)
    (short : (strrchr call.path.bytes).length < a1fsNameMax) (h : call.exec env fuel fs = .ok (fs', r)) :
    StaysInSlot fs env call fs' ↔ SparesSlots fs env call := by
  cases call with
  | create path mode => exact newEntry_staysInSlot rfl short (a1fsCreate_ok.mp h).2
  | mkdir path mode => exact newEntry_staysInSlot rfl short h
  | unlink | rmdir | truncate | write => cases new

/-- Only the length of the path counts, so a long component of a shorter path is let through. -/
theorem answers_iff : ((∃ st, a1fsGetattr fs path = .ok (-eNameTooLong, st)) ↔
    a1fsPathMax ≤ path.bytes.length ∨ HasLongName path) ↔
      a1fsPathMax ≤ path.bytes.length ∨ ¬ HasLongName path := by
  rw [getattr_refuses]
  tauto

end Paths

/-- The names of the components are right when the whole path is refused or has no long one, and the slots when
    no block that is set up for the entry holds a used slot. -/
theorem refuses_long_iff {fs : FsCtx} {path : CString} :
    RefusesLong fs path ↔ (a1fsPathMax ≤ path.bytes.length ∨ ¬ HasLongName path) ∧
      ∀ st, a1fsGetattr fs path = .ok (-eNoEnt, st) → ∀ env fuel call fs' r, call.newMode.isSome = true →
        call.path = path → call.exec env fuel fs = .ok (fs', r) → SparesSlots fs env call := by
  have stays (usual : a1fsPathMax ≤ path.bytes.length ∨ ¬ HasLongName path) {st : Option Stat}
      (answer : a1fsGetattr fs path = .ok (-eNoEnt, st)) {env : Env} {fuel : Nat} {call : Call} {fs' : FsCtx} {r : Int}
      (new : call.newMode.isSome = true) (named : call.path = path)
      (h : call.exec env fuel fs = .ok (fs', r)) : StaysInSlot fs env call fs' ↔ SparesSlots fs env call := by
    obtain ⟨fits, absolute⟩ := getattr_missing answer
    subst named
    exact call.exec_staysInSlot new (strrchr_short absolute (usual.resolve_left (by omega))) h
  constructor
  · rintro ⟨answers, keeps⟩
    have usual := answers_iff.mp answers
    refine ⟨usual, fun st answer env fuel call fs' r new named h => ?_⟩
    exact (stays usual answer new named h).mp (keeps st answer env fuel call fs' r new named h)
  · rintro ⟨usual, spares⟩
    refine ⟨answers_iff.mpr usual, fun st answer env fuel call fs' r new named h => ?_⟩
    exact (stays usual answer new named h).mpr (spares st answer env fuel call fs' r new named h)

def longPath : CString := ⟨slash :: List.replicate 252 97#8, by decide⟩

/-- The terminator of the name goes into the inode number of the next entry, which is free no longer. -/
theorem refuses_long_fails :
    HasLongName longPath ∧ ¬ RefusesLong device longPath ∧
      (∃ out, a1fsGetattr device longPath = .ok out ∧ out.1 = -eNoEnt) ∧
      ∃ out, a1fsCreate quiet device longPath regularMode = .ok out ∧ out.2 = 0 ∧
        out.1.dentryIno 256 = -256 := by
  have long : HasLongName longPath := by decide +kernel
  refine ⟨long, fun refuses => ?_, by decide +kernel, by decide +kernel⟩
  rcases answers_iff.mp refuses.answers with beyond | short
  · exact absurd beyond (by decide +kernel)
  · exact short long

end ExtentFs
