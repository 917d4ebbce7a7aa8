import ExtentFs.Guarantees.Isolation
import ExtentFs.Guarantees.Reads
import ExtentFs.Invariants.Served

namespace ExtentFs

open Base Base.Bytes

/-- Where the bytes of a request are when the search for its offset ends at slot `k`. At the end of the
    slot's extent they are those of the next one. -/
inductive A1fsInode.ServedFrom (inode : A1fsInode) (offset length k : Nat) : Nat → Prop
  | within (slot : k ∈ inode.usedSlots) (small : 4096 * (inode.iExtent k).count < 2 ^ 31)
      (fits : offset + length ≤ 4096 * (inode.iExtent k).count) :
      ServedFrom inode offset length k (4096 * (inode.iExtent k).start + offset)
  | next (slot : k + 1 ∈ inode.usedSlots) (small : 4096 * (inode.iExtent k).count < 2 ^ 31)
      (small' : 4096 * (inode.iExtent (k + 1)).count < 2 ^ 31)
      (full : offset = 4096 * (inode.iExtent k).count) (short : length ≤ 4096) :
      ServedFrom inode offset length k (4096 * (inode.iExtent (k + 1)).start)

/-- The bytes stand where a request for them will look. -/
structure FsCtx.Serves (fs : FsCtx) (inode : A1fsInode) (offset : Nat) (bytes : List Byte) : Prop where
  room : offset + bytes.length ≤ inode.size
  place : ∃ k a, Finds inode offset k ∧ inode.ServedFrom offset bytes.length k a ∧
    ∀ x < bytes.length, bytes[x]? = some (fs.data (a + x))

/-- The file has an extent that ends at the offset, and with it the data region. -/
def FsCtx.StopsAtEnd (fs : FsCtx) (inode : A1fsInode) (offset : Nat) : Prop :=
  ∃ k ∈ inode.usedSlots, offset = 4096 * (inode.iExtent k).count ∧
    (inode.iExtent k).start + (inode.iExtent k).count = fs.dataBlocks

section Write

variable {fs fs' : FsCtx} {inode : A1fsInode} {path : CString} {env : Env} {fuel slots i k offset : Nat}
  {buf : List Byte} {r : Int}

theorem copyExtents_small (some : buf ≠ [])
    (h : copyExtents inode buf slots fs k offset buf.length 0 = .ok fs') :
    4096 * (inode.iExtent k).count < 2 ^ 31 := by
  have length := List.length_pos_of_ne_nil some
  cases slots with
  | zero =>
    rw [copyExtents, if_pos (by omega)] at h
    cases h
  | succ slots =>
    rw [copyExtents, if_pos (by omega), bind_eq_ok] at h
    obtain ⟨extent, read, h⟩ := h
    obtain ⟨-, same⟩ := guard_eq_ok.mp read
    cases same
    rw [bind_eq_ok] at h
    obtain ⟨bytes, arith, -⟩ := h
    obtain ⟨bounds, -⟩ := intArith_ok.mp arith
    omega

/-- A write that succeeds searches for its offset in the inode that it leaves behind. -/
theorem a1fsWrite_search (walk : getInodeNum fs path 0 = .ok (i : Int)) (short : offset + buf.length < 2 ^ 31)
    (h : a1fsWrite env fuel fs path buf offset = .ok (fs', r)) (success : 0 ≤ r) :
    ∃ fs1 k, fs'.itable = fs1.itable ∧ Finds (fs1.itable i) offset k ∧
      copyExtents (fs1.itable i) buf (12 - k) fs1 k offset buf.length 0 = .ok fs' := by
  have offset' : toInt (offset : Int) = offset := toInt_size (by omega)
  have length' : toInt (buf.length : Int) = buf.length := toInt_size (by omega)
  rw [a1fsWrite, walk, ok_bind, if_neg (by omega), bind_eq_ok] at h
  obtain ⟨inode, read, h⟩ := h
  obtain ⟨-, rfl⟩ := inodeAt_ok.mp read
  rw [Int.toNat_natCast, offset', length'] at h
  have rest (fs1 : FsCtx) (returned : (do
        let found ← findOffsetExtent (fs1.itable i) offset 12 0
        if found.2 < 0 then pure (fs1, -env.errno)
        else do
          let copied ← copyExtents (fs1.itable i) buf (12 - found.1) fs1 found.1 offset buf.length 0
          pure (copied, (buf.length : Int)) : Checked (FsCtx × Int)) = .ok (fs', r)) :
      ∃ fs1 k, fs'.itable = fs1.itable ∧ Finds (fs1.itable i) offset k ∧
        copyExtents (fs1.itable i) buf (12 - k) fs1 k offset buf.length 0 = .ok fs' := by
    rw [bind_eq_ok] at returned
    obtain ⟨⟨k, found⟩, search, returned⟩ := returned
    obtain ⟨k', same, finds⟩ := finds_iff.mp search
    cases same
    dsimp only at returned
    rw [if_neg (by omega), bind_eq_ok] at returned
    obtain ⟨copied, copy, returned⟩ := returned
    cases returned
    obtain ⟨data, result⟩ := copyExtents_data copy
    exact ⟨fs1, k, by rw [result], finds, copy⟩
  dsimp only at h
  split at h
  · rw [bind_eq_ok] at h
    obtain ⟨⟨fs1, t⟩, -, h⟩ := h
    dsimp only at h
    split at h
    · cases h
      cases success
    · exact rest fs1 h
  · rw [pure_bind] at h
    exact rest fs h

/-- The fields of the file that a write has resized are the expected ones, and cover the bytes. -/
theorem Wrote.resized (wrote : Wrote fs i buf offset env.now fs' r) (success : 0 ≤ r) (some : buf ≠ [])
    (measured : (fs.itable i).Measured) (short : offset + buf.length < 2 ^ 31) :
    (fs'.itable i).fields = fieldsForWrite (fs.itable i) buf.length offset ∧
      offset + buf.length ≤ (fs'.itable i).size := by
  cases wrote with
  | refused code =>
    rw [code] at success
    cases success
  | empty code none => exact absurd none some
  | @stored fs1 a code some resized place result =>
    rw [result]
    split at resized
    · rename_i beyond
      have size := resized.newSize (by omega)
      rw [fieldsForWrite, if_pos beyond]
      exact ⟨resized.fields measured (by omega) (by omega), by dsimp only; omega⟩
    · rename_i within
      rw [fieldsForWrite, if_neg within, resized]
      exact ⟨rfl, by dsimp only; omega⟩

theorem Finds.place (finds : Finds inode offset k) (measured : inode.Measured) (some : 0 < inode.size)
    (inside : offset = 0 ∨ lands inode.fields offset = true) : k ∈ inode.usedSlots ∧
      (offset < 4096 * (inode.iExtent k).count ∨
        (offset = 4096 * (inode.iExtent k).count ∧ k + 1 ∈ inode.usedSlots)) := by
  by_cases start : offset = 0
  · subst start
    cases finds with
    | slot more => omega
    | start =>
      have low := measured.low
      have used : 0 ≤ inode.lastUsedExtent := by
        by_contra unused
        have blank := measured.blank (by omega)
        omega
      have slot : 0 ∈ inode.usedSlots := A1fsInode.mem_usedSlots.mpr (by omega)
      have more := measured.counted 0 slot
      exact ⟨slot, .inl (by omega)⟩
  · obtain ⟨-, slot, -, place⟩ := search_lands (by omega) (inside.resolve_left start)
      (finds_iff.mpr ⟨k, rfl, finds⟩)
    exact ⟨slot, place⟩

/-- The loop leaves the bytes in the extent that the search has found or at the start of the next. -/
theorem copyExtents_serves (finds : Finds inode offset k) (measured : inode.Measured) (some : buf ≠ [])
    (aligned : offset % 4096 + buf.length ≤ 4096) (room : offset + buf.length ≤ inode.size)
    (inside : offset = 0 ∨ lands inode.fields offset = true)
    (copy : copyExtents inode buf slots fs k offset buf.length 0 = .ok fs') : fs'.Serves inode offset buf := by
  have length := List.length_pos_of_ne_nil some
  obtain ⟨slot, place⟩ := finds.place measured (by omega) inside
  have near (k : Nat) (slot : k ∈ inode.usedSlots) : 4096 * (inode.iExtent k).start < 2 ^ 32 := by
    have more := measured.counted k slot
    have near := measured.near (inode.iExtent k).start
      (A1fsInode.mem_blocks.mpr ⟨k, slot, A1fsExtent.mem_blocks.mpr ⟨le_refl _, by omega⟩⟩)
    omega
  have held (fs : FsCtx) (a x : Nat) (before : x < buf.length) :
      buf[x]? = Option.some (fs.data.store a buf (a + x)) := by
    rw [store_inside before, List.getElem?_eq_getElem before]
  have small := copyExtents_small some copy
  refine ⟨room, k, ?_⟩
  rcases place with before | ⟨full, next⟩
  · have fits : offset + buf.length ≤ 4096 * (inode.iExtent k).count := by omega
    rw [copyExtents_within some (near k slot) fits copy]
    exact ⟨_, finds, .within slot small fits, held fs _⟩
  · obtain ⟨slots', copy⟩ := copyExtents_next some full copy
    have more := measured.counted (k + 1) next
    have fits : 0 + buf.length ≤ 4096 * (inode.iExtent (k + 1)).count := by omega
    rw [copyExtents_within some (near (k + 1) next) fits copy]
    exact ⟨_, finds, .next next small (copyExtents_small some copy) full (by omega), held fs _⟩

end Write

section Read

variable {fs fs' fs'' : FsCtx} {path : CString} {env : Env} {i k a offset length : Nat} {bytes : List Byte}

theorem A1fsInode.ServedFrom.member {inode : A1fsInode} (source : inode.ServedFrom offset length k a)
    (counted : ∀ k ∈ inode.usedSlots, 0 < (inode.iExtent k).count) {x : Nat} (before : x < length) :
    (a + x) / 4096 ∈ inode.blocks := by
  rw [A1fsInode.mem_blocks]
  cases source with
  | within slot small fits => exact ⟨k, slot, A1fsExtent.mem_blocks.mpr ⟨by omega, by omega⟩⟩
  | next slot small small' full short =>
    have more := counted (k + 1) slot
    exact ⟨k + 1, slot, A1fsExtent.mem_blocks.mpr ⟨by omega, by omega⟩⟩

/-- The file is as it was but for its time, and so are the bytes of its blocks. -/
structure FsCtx.KeepsFile (fs fs' : FsCtx) (i : Nat) : Prop where
  inode : ∃ t, fs'.itable i = { fs.itable i with iMtime := t }
  contents : ∀ x, x / 4096 ∈ (fs.itable i).blocks → fs'.data x = fs.data x

theorem FsCtx.KeepsFile.refl : fs.KeepsFile fs i := ⟨⟨_, rfl⟩, fun _ _ => rfl⟩

theorem FsCtx.KeepsFile.trans (first : fs.KeepsFile fs' i) (second : fs'.KeepsFile fs'' i) :
    fs.KeepsFile fs'' i := by
  obtain ⟨t, inode⟩ := first.inode
  obtain ⟨⟨t', inode'⟩, contents⟩ := second
  rw [inode] at inode' contents
  refine ⟨⟨t', inode'⟩, fun x inside => ?_⟩
  rw [contents x inside]
  exact first.contents x inside

theorem FsCtx.Keeps.keepsFile (keeps : fs.Keeps fs' i) : fs.KeepsFile fs' i :=
  ⟨⟨_, keeps.inode⟩, keeps.contents⟩

theorem keepsFile_setTime {j : Nat} {t : Timespec} :
    fs.KeepsFile (fs.setInode j { fs.itable j with iMtime := t }) i := by
  refine ⟨?_, fun _ _ => rfl⟩
  by_cases own : i = j
  · exact ⟨t, by rw [own, FsCtx.setInode_self]⟩
  · exact ⟨_, FsCtx.setInode_other own⟩

theorem FsCtx.Serves.kept (serves : fs.Serves (fs.itable i) offset bytes) (keeps : fs.KeepsFile fs' i)
    (counted : ∀ k ∈ (fs.itable i).usedSlots, 0 < ((fs.itable i).iExtent k).count) :
    fs'.Serves (fs'.itable i) offset bytes := by
  obtain ⟨room, k, a, finds, source, held⟩ := serves
  obtain ⟨t, inode⟩ := keeps.inode
  rw [inode]
  refine ⟨room, k, a, ?_, ?_, fun x before => ?_⟩
  · cases finds with
    | start => exact .start
    | slot some inside reaches passed => exact .slot some inside reaches passed
  · cases source with
    | within slot small fits => exact .within slot small fits
    | next slot small small' full short => exact .next slot small small' full short
  · rw [keeps.contents _ (source.member counted before)]
    exact held x before

/-- The last block of an extent is one of the data region. -/
theorem Tree.extent_inside (tree : Tree fs) (regular : sIsreg (fs.itable i).mode = true)
    (slot : k ∈ (fs.itable i).usedSlots) : 0 < ((fs.itable i).iExtent k).count ∧
      4096 * ((fs.itable i).iExtent k).start < 2 ^ 32 ∧
      ((fs.itable i).iExtent k).start + ((fs.itable i).iExtent k).count ≤ fs.dataBlocks := by
  have more := (tree.files i regular).counted k slot
  have member : ((fs.itable i).iExtent k).start + (((fs.itable i).iExtent k).count - 1) ∈
      (fs.itable i).blocks :=
    A1fsInode.mem_blocks.mpr ⟨k, slot, A1fsExtent.mem_blocks.mpr ⟨by omega, by omega⟩⟩
  obtain ⟨inside, near⟩ := tree.inside i _ member
  exact ⟨more, by omega, by omega⟩

/-- A request whose bytes stand where it looks is answered them, unless it is made to look behind the
    data region first. -/
theorem FsCtx.Serves.answer (serves : fs.Serves (fs.itable i) offset bytes) (some : bytes ≠ [])
    (tree : Tree fs) (steady : Steady fs) (regular : sIsreg (fs.itable i).mode = true)
    (alive : fs.live i = true) (walk : getInodeNum fs path 0 = .ok (i : Int)) :
    a1fsRead env fs path bytes.length offset = .ok ((bytes.length : Int), fun x => bytes[x]?) ∨
      fs.StopsAtEnd (fs.itable i) offset := by
  obtain ⟨room, k, a, finds, source, held⟩ := serves
  have length := List.length_pos_of_ne_nil some
  have fits := (tree.files i regular).fits
  have high := (steady.sane i).high
  have whole : 4096 * fs.dataBlocks ≤ fs.dataSize := by
    rw [FsCtx.dataBlocks]
    omega
  have spelled (buf : Buffer) (blank : ∀ x, ¬ x < bytes.length → buf x = none) :
      (fun x => bytes[x]?) = fun x => if x < bytes.length then Option.some (fs.data (a + x)) else buf x := by
    funext x
    by_cases before : x < bytes.length
    · rw [if_pos before, held x before]
    · rw [if_neg before, blank x before, List.getElem?_eq_none (by omega)]
  have answer (filled : readExtents fs (fs.itable i) bytes.length (12 - k) (fun _ => none) k offset
      bytes.length 0 = .ok fun x => bytes[x]?) :
      a1fsRead env fs path bytes.length offset = .ok ((bytes.length : Int), fun x => bytes[x]?) :=
    (a1fsRead_ok walk (live_iff.mp alive).1 fits (by omega)).mpr
      (.inr ⟨by omega, rfl, k, finds, filled⟩)
  obtain ⟨slots, left⟩ : ∃ slots, 12 - k = slots + 1 := ⟨11 - k, by have := finds.inside; omega⟩
  rw [left] at answer
  cases source with
  | within slot small fits =>
    obtain ⟨-, near, inside⟩ := tree.extent_inside regular slot
    have address : ((fs.itable i).iExtent k).start * 4096 % 2 ^ 32 = 4096 * ((fs.itable i).iExtent k).start := by
      omega
    refine .inl (answer ((readExtents_within length finds.inside fits).mpr ⟨small, by omega, ?_⟩))
    rw [address]
    exact spelled _ fun _ _ => rfl
  | next slot small small' full short =>
    have used := A1fsInode.mem_usedSlots.mp slot
    have slot' : k ∈ (fs.itable i).usedSlots := A1fsInode.mem_usedSlots.mpr (by omega)
    obtain ⟨-, near, inside⟩ := tree.extent_inside regular slot'
    obtain ⟨more, near', inside'⟩ := tree.extent_inside regular slot
    by_cases ends : ((fs.itable i).iExtent k).start + ((fs.itable i).iExtent k).count = fs.dataBlocks
    · exact .inr ⟨k, slot', full, ends⟩
    · have address : ((fs.itable i).iExtent (k + 1)).start * 4096 % 2 ^ 32 =
          4096 * ((fs.itable i).iExtent (k + 1)).start := by omega
      obtain ⟨slots', rfl⟩ : ∃ slots', slots = slots' + 1 := ⟨slots - 1, by omega⟩
      refine .inl (answer ((readExtents_turn (by omega) finds.inside (by omega)).mpr
        ⟨small, by omega, by omega, ?_⟩))
      have room' : (4096 * (((fs.itable i).iExtent k).count : Int)) - offset = 0 := by omega
      rw [room', Int.sub_zero]
      refine (readExtents_first length (by omega) (by omega)).mpr ⟨small', by omega, ?_⟩
      rw [address]
      exact spelled _ fun x outside => if_neg outside

end Read

section Later

variable {fs fs' fs1 fs2 : FsCtx} {path : CString} {env env' : Env} {fuel i offset : Nat} {buf : List Byte}
  {r : Int} {event : Event}

theorem Tree.write_serves (tree : Tree fs) (steady : Steady fs)
    (sound : Sound fs ⟨.write path buf offset, env, r⟩)
    (written : a1fsWrite env fuel fs path buf offset = .ok (fs', r)) (success : 0 ≤ r) (some : buf ≠ []) :
    ∃ i, fs.resolve path = Option.some i ∧ sIsreg (fs.itable i).mode = true ∧ fs.FileStep fs' i ∧
      fs'.Serves (fs'.itable i) offset buf := by
  obtain ⟨i, found, regular, alive, wrote, changed⟩ := tree.write steady sound written
  have walk := getInodeNum_of_resolve found
  obtain ⟨short, inside⟩ := sound.lands.holds walk
  obtain ⟨fields, room⟩ := wrote.resized success some (tree.files i regular) short
  obtain ⟨fs1, k, table, finds, copy⟩ := a1fsWrite_search walk short written success
  rw [← table] at finds copy
  rw [← fields] at inside
  exact ⟨i, found, regular, changed, copyExtents_serves finds changed.measured some sound.documented.2
    room (inside.resolve_left some) copy⟩

/-- A call on another path keeps a file. -/
theorem Tree.keepsFile (tree : Tree fs) (steady : Steady fs) (sound : Sound fs event)
    (step : a1fs.Step fs event fs') (leads : fs.Leads (strtok path.bytes) i)
    (regular : sIsreg (fs.itable i).mode = true) (other : strtok path.bytes ≠ event.call.tokens) :
    fs.KeepsFile fs' i := by
  refine ((tree.isolated steady sound step).others i (tree.alive_of_walk leads) ?_ ?_).keepsFile
  · intro own
    exact other (tree.forest.path_unique leads (tree.walk_of_resolve own))
  · intro parent
    rw [not_regular (Option.filter_eq_some_iff.mp parent).2] at regular
    cases regular

/-- What calls on other paths leave of a file, whatever else is asked. -/
theorem keepsFile_run {guard : FsCtx → Exchange → Prop} (reached : driver.Reaches guard fs1)
    (tended : ∀ fs x, guard fs x → Tended fs x) (leads : fs1.Leads (strtok path.bytes) i)
    (regular : sIsreg (fs1.itable i).mode = true)
    (later : (driver.startedAt fs1).Reaches (fun s x => guard s x ∧
      ∀ event ∈ x.event, strtok path.bytes ≠ event.call.tokens) fs2) :
    Steady fs2 ∧ Tree fs2 ∧ fs2.Leads (strtok path.bytes) i ∧ fs1.KeepsFile fs2 i := by
  have known (t : FsCtx) (later : (driver.startedAt fs1).Reaches (fun s x => guard s x ∧
      ∀ event ∈ x.event, strtok path.bytes ≠ event.call.tokens) t) : Steady t ∧ Tree t :=
    tree_of_driver (reached.resume later fun _ _ allowed => allowed.1) tended
  obtain ⟨steady, tree⟩ := known fs2 later
  refine ⟨steady, tree, later.relative known
    (fun t => t.Leads (strtok path.bytes) i ∧ fs1.KeepsFile t i) ?_ ?_⟩
  · rintro t rfl
    exact ⟨leads, .refl⟩
  · rintro s x t ⟨steady, tree⟩ ⟨leads, keeps⟩ ⟨allowed, others⟩ step
    obtain ⟨time, inode⟩ := keeps.inode
    have regular' : sIsreg (s.itable i).mode = true := by
      rw [inode]
      exact regular
    rcases tree.served steady (tended s x allowed) step with same | ⟨j, set, result⟩ |
      ⟨event, made, step, effect⟩
    · exact same ▸ ⟨leads, keeps⟩
    · exact result ▸ ⟨leads_setTime.mpr leads, keeps.trans keepsFile_setTime⟩
    · have sound := tended s x allowed event made
      have other := others event made
      exact ⟨tree.leads_kept effect sound.documented.shaped leads other,
        keeps.trans (tree.keepsFile steady sound step leads regular' other)⟩

/-- What a write has put into a file is what is read there, whatever else is asked, until a call names the
    file again. Only a file whose extent before the bytes ends the data region cannot be read there. -/
theorem writes_read_back (run : driver.Reaches Tended fs) (sound : Sound fs ⟨.write path buf offset, env, r⟩)
    (written : a1fsWrite env fuel fs path buf offset = .ok (fs1, r)) (success : 0 ≤ r) (some : buf ≠ [])
    (later : (driver.startedAt fs1).Reaches (fun s x => Tended s x ∧
      ∀ event ∈ x.event, strtok path.bytes ≠ event.call.tokens) fs2) :
    ∃ i, fs2.resolve path = Option.some i ∧
      (a1fsRead env' fs2 path buf.length offset = .ok ((buf.length : Int), fun x => buf[x]?) ∨
        fs2.StopsAtEnd (fs2.itable i) offset) := by
  obtain ⟨steady, tree⟩ := tree_of_driver run fun _ _ tended => tended
  obtain ⟨i, found, regular, changed, serves⟩ := tree.write_serves steady sound written success some
  have first : a1fs.Step fs ⟨.write path buf offset, env, r⟩ fs1 := ⟨fuel, written⟩
  have tended : Tended fs (Event.exchange ⟨.write path buf offset, env, r⟩) := by
    rintro event made
    cases made
    exact sound
  have regular1 : sIsreg (fs1.itable i).mode = true := by
    rw [changed.mode]
    exact regular
  have leads1 : fs1.Leads (strtok path.bytes) i :=
    (Tree.leads_same (changed.edge tree regular)).mpr (tree.walk_of_resolve found)
  obtain ⟨steady2, tree2, leads, keeps⟩ :=
    keepsFile_run (.step run tended (Event.serves first)) (fun _ _ tended => tended) leads1 regular1 later
  obtain ⟨time, inode⟩ := keeps.inode
  have regular2 : sIsreg (fs2.itable i).mode = true := by
    rw [inode]
    exact regular1
  have resolved : fs2.resolve path = Option.some i :=
    (tree2.resolve_iff steady2 sound.documented.1.1).mpr leads
  have counted := changed.measured.counted
  exact ⟨i, resolved, (serves.kept keeps counted).answer some tree2 steady2 regular2
    (tree2.alive_of_walk leads) (getInodeNum_of_resolve resolved)⟩

/-- A file gets two bytes, and then a directory is made. -/
theorem writes_read_back_run : ∃ fs2 i, fs2.live 2 = true ∧ fs2.resolve pathA = some i ∧
    (a1fsRead quiet fs2 pathA 2 20 = .ok (2, fun x => [122#8, 123#8][x]?) ∨
      fs2.StopsAtEnd (fs2.itable i) 20) := by
  have runs : ∃ fs ∈ runCalls Sound quiet 10 device [.create pathA regularMode],
      Sound fs ⟨.write pathA [122#8, 123#8] 20, quiet, 2⟩ ∧
      ∃ out, a1fsWrite quiet 10 fs pathA [122#8, 123#8] 20 = .ok out ∧ out.2 = 2 ∧
      Sound out.1 ⟨.mkdir pathB 0, quiet, 0⟩ ∧
      ∃ out', Call.exec quiet 10 out.1 (.mkdir pathB 0) = .ok out' ∧ out'.2 = 0 ∧ out'.1.live 2 = true := by
    decide +kernel
  obtain ⟨fs, made, sound, ⟨fs1, r⟩, written, rfl, sound', ⟨fs2, r'⟩, returned, rfl, alive⟩ := runs
  have run : driver.Reaches Tended fs :=
    driver_of_calls (runCalls_reaches (.initial device_initial) made)
  have step : a1fs.Step fs1 ⟨.mkdir pathB 0, quiet, 0⟩ fs2 := ⟨10, returned⟩
  have later : (driver.startedAt fs1).Reaches (fun s x => Tended s x ∧
      ∀ event ∈ x.event, strtok pathA.bytes ≠ event.call.tokens) fs2 := by
    refine .step (.initial rfl) ⟨?_, ?_⟩ (Event.serves step)
    all_goals
      rintro event same
      cases same
    · exact sound'
    · decide
  have some : [122#8, 123#8] ≠ [] := by decide
  obtain ⟨i, found, answer⟩ := writes_read_back run sound written (by decide) some later
  exact ⟨fs2, i, alive, found, answer⟩

end Later

end ExtentFs
