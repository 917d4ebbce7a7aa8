import ExtentFs.Effects.Resize

namespace ExtentFs

open Base Base.Bytes

def A1fsInode.fields (inode : A1fsInode) : List (Nat × Int) :=
  inode.usedSlots.map fun k => ((inode.iExtent k).count, (inode.iExtent k).size)

/-- The search for an offset ends in one of the slots, the first whose size field is not 0, and
    the bytes go to this slot or to the one behind it. -/
def lands (fields : List (Nat × Int)) (offset : Nat) : Bool :=
  match fields.dropWhile fun slot => slot.2 = 0 with
  | [] => false
  | slot :: rest => offset < 4096 * slot.1 ∨ (offset = 4096 * slot.1 ∧ rest ≠ [])

/-- Where the bytes of a write go. The offset is not reduced by the slots passed over. -/
inductive Placed (inode : A1fsInode) (offset length : Nat) : Nat → Prop
  | within {k : Nat} (slot : k ∈ inode.usedSlots) (start : offset = 0 → k = 0)
      (passed : ∀ m < k, (inode.iExtent m).size = 0)
      (fits : offset + length ≤ 4096 * (inode.iExtent k).count) :
      Placed inode offset length (4096 * (inode.iExtent k).start + offset)
  | next {k : Nat} (slot : k + 1 ∈ inode.usedSlots) (passed : ∀ m < k, (inode.iExtent m).size = 0)
      (full : offset = 4096 * (inode.iExtent k).count) :
      Placed inode offset length (4096 * (inode.iExtent (k + 1)).start)

section Search

variable {inode : A1fsInode} {offset slots cur k : Nat} {found : Int}

theorem findOffsetExtent_ok (some : 0 < offset)
    (h : findOffsetExtent inode offset slots cur = .ok (k, found)) :
    found = 0 ∧ cur ≤ k ∧ (offset : Int) ≤ (inode.iExtent k).size ∧
      ∀ m, cur ≤ m → m < k → (inode.iExtent m).size = 0 := by
  induction slots generalizing cur with
  | zero => cases h
  | succ slots ih =>
    rw [findOffsetExtent, if_neg (by omega), if_pos (by omega), bind_eq_ok] at h
    obtain ⟨extent, read, h⟩ := h
    obtain ⟨-, same⟩ := guard_eq_ok.mp read
    cases same
    split at h
    · split at h
      · rename_i zero
        obtain ⟨rfl, after, reaches, passed⟩ := ih h
        refine ⟨rfl, by omega, reaches, fun m low high => ?_⟩
        rcases Nat.eq_or_lt_of_le low with rfl | later
        · exact zero
        · exact passed m later high
      · cases h
    · rename_i reaches
      cases h
      exact ⟨rfl, le_refl _, by omega, fun m low high => by omega⟩

theorem lands_at {fields : List (Nat × Int)} (inside : lands fields offset = true)
    (passed : ∀ m < k, ∀ slot, fields[m]? = some slot → slot.2 = 0)
    (stops : ∀ slot, fields[k]? = some slot → slot.2 ≠ 0) :
    ∃ slot, fields[k]? = some slot ∧
      (offset < 4096 * slot.1 ∨ (offset = 4096 * slot.1 ∧ k + 1 < fields.length)) := by
  induction fields generalizing k with
  | nil => cases inside
  | cons first rest ih =>
    cases k with
    | zero =>
      have nonzero := stops first rfl
      rw [lands, List.dropWhile_cons_of_neg (by simpa using nonzero)] at inside
      refine ⟨first, rfl, ?_⟩
      rcases of_decide_eq_true inside with before | ⟨full, more⟩
      · exact .inl before
      · have := List.length_pos_of_ne_nil more
        exact .inr ⟨full, by simpa using this⟩
    | succ k =>
      have zero := passed 0 (by omega) first rfl
      rw [lands, List.dropWhile_cons_of_pos (by simpa using zero)] at inside
      obtain ⟨slot, at_, place⟩ := ih (k := k) inside
        (fun m below slot at_ => passed (m + 1) (by omega) slot (by simpa using at_))
        (fun slot at_ => stops slot (by simpa using at_))
      refine ⟨slot, by simpa using at_, ?_⟩
      rw [List.length_cons]
      omega

theorem fields_get (slot : k ∈ inode.usedSlots) :
    inode.fields[k]? = some ((inode.iExtent k).count, (inode.iExtent k).size) := by
  rw [A1fsInode.usedSlots, List.mem_range] at slot
  rw [A1fsInode.fields, List.getElem?_map, A1fsInode.usedSlots, List.getElem?_range slot]
  rfl

theorem fields_length : inode.fields.length = (inode.lastUsedExtent + 1).toNat := by
  rw [A1fsInode.fields, A1fsInode.usedSlots, List.length_map, List.length_range]

theorem fields_appendExtent {extent : A1fsExtent} {now : Timespec} (low : -1 ≤ inode.lastUsedExtent) :
    (inode.appendExtent extent now).fields = inode.fields ++ [(extent.count, extent.size)] := by
  have next : (inode.lastUsedExtent + 1 + 1).toNat = (inode.lastUsedExtent + 1).toNat + 1 := by omega
  have slots : (inode.appendExtent extent now).usedSlots =
      inode.usedSlots ++ [(inode.lastUsedExtent + 1).toNat] := by
    simp only [A1fsInode.usedSlots, A1fsInode.appendExtent, next, List.range_succ]
  have last : (inode.appendExtent extent now).iExtent (inode.lastUsedExtent + 1).toNat = extent :=
    A1fsInode.setExtent_self
  rw [A1fsInode.fields, slots, List.map_append, List.map_singleton, last, A1fsInode.fields]
  congr 1
  refine List.map_congr_left fun k slot => ?_
  rw [A1fsInode.mem_usedSlots] at slot
  have before : (inode.appendExtent extent now).iExtent k = inode.iExtent k :=
    A1fsInode.setExtent_other (by omega)
  rw [before]

end Search

section Copy

variable {fs fs' : FsCtx} {inode : A1fsInode} {buf : List Byte} {offset slots k : Nat}

theorem store_nil {m : Bytes} {a : Nat} : m.store a [] = m := by
  funext x
  apply store_outside
  rw [List.length_nil]
  omega

/-- The first round of the loop stores the whole buffer, or what fits behind the offset. -/
theorem copyExtents_cases (some : buf ≠ [])
    (h : copyExtents inode buf slots fs k offset buf.length 0 = .ok fs') :
    let start : Int := ((inode.iExtent k).start * 4096 % 2 ^ 32 : Nat) + offset
    let room : Int := (inode.iExtent k).count * 4096 - offset
    (buf.length ≤ room ∧ fs.storeBytes start buf = .ok fs') ∨
      (room < buf.length ∧ 0 ≤ room ∧ ∃ stored rest,
        fs.storeBytes (start + offset) (buf.take room.toNat) = .ok stored ∧
          copyExtents inode buf rest stored (k + 1) 0 (buf.length - room) room = .ok fs') := by
  have length := List.length_pos_of_ne_nil some
  cases slots with
  | zero =>
    rw [copyExtents, if_pos (by omega)] at h
    cases h
  | succ slots =>
    rw [copyExtents, if_pos (by omega), bind_eq_ok] at h
    obtain ⟨extent, read, h⟩ := h
    obtain ⟨-, same⟩ := guard_eq_ok.mp read
    cases same
    rw [bind_eq_ok] at h
    obtain ⟨bytes, arith, h⟩ := h
    obtain ⟨-, rfl⟩ := intArith_ok.mp arith
    have whole : (buf.drop (0 : Int).toNat).take (buf.length : Int).toNat = buf := by simp
    dsimp only at h ⊢
    split at h
    · rename_i beyond
      split at h
      · cases h
      · rename_i nonneg
        rw [bind_eq_ok] at h
        obtain ⟨stored, store, h⟩ := h
        exact .inr ⟨beyond, by omega, stored, slots, store, h⟩
    · rename_i within
      rw [whole] at h
      exact .inl ⟨by omega, h⟩

theorem copyExtents_within (some : buf ≠ []) (small : 4096 * (inode.iExtent k).start < 2 ^ 32)
    (fits : offset + buf.length ≤ 4096 * (inode.iExtent k).count)
    (h : copyExtents inode buf slots fs k offset buf.length 0 = .ok fs') :
    fs' = { fs with data := fs.data.store (4096 * (inode.iExtent k).start + offset) buf } := by
  rcases copyExtents_cases some h with ⟨-, store⟩ | ⟨beyond, -⟩
  · have address : (((inode.iExtent k).start * 4096 % 2 ^ 32 : Nat) : Int) + offset =
        (4096 * (inode.iExtent k).start + offset : Nat) := by
      rw [Nat.mod_eq_of_lt (by omega)]
      omega
    rw [address] at store
    obtain ⟨-, rfl⟩ := storeBytes_ok.mp store
    rw [Int.toNat_natCast]
  · omega

theorem copyExtents_next (some : buf ≠ []) (full : offset = 4096 * (inode.iExtent k).count)
    (h : copyExtents inode buf slots fs k offset buf.length 0 = .ok fs') :
    ∃ slots', copyExtents inode buf slots' fs (k + 1) (0 : Nat) buf.length 0 = .ok fs' := by
  have length := List.length_pos_of_ne_nil some
  have room : ((inode.iExtent k).count : Int) * 4096 - offset = 0 := by omega
  rcases copyExtents_cases some h with ⟨within, -⟩ | ⟨-, -, stored, rest, store, h⟩
  · omega
  · rw [room] at store h
    obtain ⟨-, rfl⟩ := storeBytes_ok.mp store
    rw [Int.toNat_zero, List.take_zero, store_nil, Int.sub_zero] at h
    exact ⟨rest, h⟩

end Copy

section Place

variable {fs fs' : FsCtx} {inode : A1fsInode} {buf : List Byte} {offset slots k : Nat} {found r : Int}
  {env : Env}

theorem fields_some {slot : Nat × Int} (at_ : inode.fields[k]? = some slot) :
    k ∈ inode.usedSlots ∧ slot = ((inode.iExtent k).count, (inode.iExtent k).size) := by
  have short := (List.getElem?_eq_some_iff.mp at_).1
  rw [fields_length] at short
  have used : k ∈ inode.usedSlots := List.mem_range.mpr short
  rw [fields_get used] at at_
  exact ⟨used, (Option.some.inj at_).symm⟩

theorem search_lands (some : 0 < offset) (inside : lands inode.fields offset = true)
    (search : findOffsetExtent inode offset slots 0 = .ok (k, found)) :
    found = 0 ∧ k ∈ inode.usedSlots ∧ (∀ m < k, (inode.iExtent m).size = 0) ∧
      (offset < 4096 * (inode.iExtent k).count ∨
        (offset = 4096 * (inode.iExtent k).count ∧ k + 1 ∈ inode.usedSlots)) := by
  obtain ⟨rfl, -, reaches, passed⟩ := findOffsetExtent_ok some search
  have zeros (m : Nat) (below : m < k) : (inode.iExtent m).size = 0 := passed m (by omega) below
  have stops (slot : Nat × Int) (at_ : inode.fields[k]? = Option.some slot) : slot.2 ≠ 0 := by
    obtain ⟨-, rfl⟩ := fields_some at_
    dsimp only
    omega
  have passes (m : Nat) (below : m < k) (slot : Nat × Int)
      (at_ : inode.fields[m]? = Option.some slot) : slot.2 = 0 := by
    obtain ⟨-, rfl⟩ := fields_some at_
    exact zeros m below
  obtain ⟨slot, at_, place⟩ := lands_at inside passes stops
  obtain ⟨used, rfl⟩ := fields_some at_
  refine ⟨rfl, used, zeros, ?_⟩
  rcases place with before | ⟨full, more⟩
  · exact .inl before
  · rw [fields_length] at more
    exact .inr ⟨full, List.mem_range.mpr more⟩

/-- The part of `a1fs_write` after the file has been resized: the bytes go to one place. -/
theorem writeData_ok (some : buf ≠ []) (aligned : offset % 4096 + buf.length ≤ 4096)
    (short : offset + buf.length < 2 ^ 31) (measured : inode.Measured)
    (room : offset + buf.length ≤ inode.size)
    (inside : offset = 0 ∨ lands inode.fields offset = true)
    (h : (do
        let (curExtent, found) ← findOffsetExtent inode (toInt offset) 12 0
        if found < 0 then pure (fs, -env.errno)
        else do
          let copied ← copyExtents inode buf (12 - curExtent) fs curExtent (toInt offset)
            (toInt buf.length) 0
          pure (copied, toInt buf.length) : Checked (FsCtx × Int)) = .ok (fs', r)) :
    r = buf.length ∧ ∃ a, Placed inode offset buf.length a ∧
      fs' = { fs with data := fs.data.store a buf } := by
  have length := List.length_pos_of_ne_nil some
  have counted := measured.counted
  have offset' : toInt (offset : Int) = offset := toInt_size (by omega)
  have length' : toInt (buf.length : Int) = buf.length := toInt_size (by omega)
  have small (k : Nat) (slot : k ∈ inode.usedSlots) : 4096 * (inode.iExtent k).start < 2 ^ 32 := by
    have more := counted k slot
    have near := measured.near (inode.iExtent k).start
      (A1fsInode.mem_blocks.mpr ⟨k, slot, A1fsExtent.mem_blocks.mpr ⟨le_refl _, by omega⟩⟩)
    omega
  rw [offset', length', bind_eq_ok] at h
  obtain ⟨⟨k, found⟩, search, h⟩ := h
  have place : found = 0 ∧ k ∈ inode.usedSlots ∧ (offset = 0 → k = 0) ∧
      (∀ m < k, (inode.iExtent m).size = 0) ∧ (offset < 4096 * (inode.iExtent k).count ∨
        (offset = 4096 * (inode.iExtent k).count ∧ k + 1 ∈ inode.usedSlots)) := by
    by_cases zero : offset = 0
    · subst zero
      cases search
      have used : 0 ≤ inode.lastUsedExtent := by
        have low := measured.low
        by_contra unused
        have blank := measured.blank (by omega)
        omega
      have slot : 0 ∈ inode.usedSlots := A1fsInode.mem_usedSlots.mpr (by omega)
      have more := counted 0 slot
      exact ⟨rfl, slot, fun _ => rfl, fun m below => by omega, .inl (by omega)⟩
    · obtain ⟨success, slot, rest⟩ := search_lands (by omega) (inside.resolve_left zero) search
      exact ⟨success, slot, fun start => absurd start zero, rest⟩
  obtain ⟨rfl, slot, start, passed, place⟩ := place
  dsimp only at h
  rw [if_neg (by omega), bind_eq_ok] at h
  obtain ⟨copied, copy, h⟩ := h
  cases h
  refine ⟨rfl, ?_⟩
  rcases place with before | ⟨full, next⟩
  · have fits : offset + buf.length ≤ 4096 * (inode.iExtent k).count := by omega
    exact ⟨_, .within slot start passed fits, copyExtents_within some (small k slot) fits copy⟩
  · obtain ⟨slots', copy⟩ := copyExtents_next some full copy
    have more := counted (k + 1) next
    have fits : 0 + buf.length ≤ 4096 * (inode.iExtent (k + 1)).count := by omega
    exact ⟨_, .next next passed full, copyExtents_within some (small (k + 1) next) fits copy⟩

theorem writeNothing_ok (short : offset < 2 ^ 31)
    (h : (do
        let (curExtent, found) ← findOffsetExtent inode (toInt offset) 12 0
        if found < 0 then pure (fs, -env.errno)
        else do
          let copied ← copyExtents inode [] (12 - curExtent) fs curExtent (toInt offset)
            (toInt ([] : List Byte).length) 0
          pure (copied, toInt ([] : List Byte).length) : Checked (FsCtx × Int)) = .ok (fs', r)) :
    r = 0 ∧ fs' = fs := by
  have zero : toInt (([] : List Byte).length : Int) = 0 := by
    rw [List.length_nil]
    exact toInt_size (by omega)
  rw [toInt_size short, zero, bind_eq_ok] at h
  obtain ⟨⟨k, found⟩, search, h⟩ := h
  have success : found = 0 := by
    by_cases start : offset = 0
    · subst start
      cases search
      rfl
    · exact (findOffsetExtent_ok (by omega) search).1
  subst success
  dsimp only at h
  rw [if_neg (by omega), bind_eq_ok] at h
  obtain ⟨copied, copy, h⟩ := h
  cases h
  refine ⟨rfl, ?_⟩
  generalize 12 - k = slots at copy
  cases slots with
  | zero =>
    rw [copyExtents, if_neg (by omega)] at copy
    cases copy
    rfl
  | succ slots =>
    rw [copyExtents, if_neg (by omega)] at copy
    cases copy
    rfl

end Place

def requestedFields (bytes : Int) : List (Nat × Int) :=
  match blockRequest bytes with
  | .ok (n, leftover) => [(n.toNat, zeroedSize n.toNat leftover + leftover)]
  | .error _ => []

/-- The fields of the slot that a file gets when it is truncated to a size, if it gets one. -/
def newFields (inode : A1fsInode) (size : Int) : List (Nat × Int) :=
  (helperSize inode size).elim [] requestedFields

/-- The fields of the used slots when a write has resized the file. -/
def fieldsForWrite (inode : A1fsInode) (length offset : Nat) : List (Nat × Int) :=
  if offset + length > inode.size then inode.fields ++ newFields inode (length + offset : Nat)
  else inode.fields

/-- What `a1fs_write` does when its offset lands in a slot that the file uses. -/
inductive Wrote (fs : FsCtx) (i : Nat) (buf : List Byte) (offset : Nat) (now : Timespec)
    (fs' : FsCtx) (r : Int) : Prop
  | refused (code : r = -eNoSpc) (beyond : (fs.itable i).size < offset + buf.length)
      (stuck : Truncated fs i (buf.length + offset) now fs (-1)) (result : fs' = fs)
  | stored {fs1 : FsCtx} {a : Nat} (code : r = buf.length) (some : buf ≠ [])
      (resized : if offset + buf.length > (fs.itable i).size
        then Truncated fs i (buf.length + offset) now fs1 0 else fs1 = fs)
      (place : Placed (fs1.itable i) offset buf.length a)
      (result : fs' = { fs1 with data := fs1.data.store a buf })
  | empty (code : r = 0) (none : buf = [])
      (resized : if offset + buf.length > (fs.itable i).size
        then Truncated fs i (buf.length + offset) now fs' 0 else fs' = fs)

section Whole

variable {fs fs' : FsCtx} {i fuel size offset : Nat} {env : Env} {now : Timespec} {buf : List Byte}
  {path : CString} {r : Int}

theorem requestedFields_ok {bytes n leftover : Int}
    (request : blockRequest bytes = .ok (n, leftover)) :
    requestedFields bytes = [(n.toNat, zeroedSize n.toNat leftover + leftover)] := by
  simp only [requestedFields, request]

theorem Truncated.fields (truncated : Truncated fs i size now fs' 0)
    (measured : (fs.itable i).Measured) (small : size < 2 ^ 31) (larger : (fs.itable i).size < size) :
    (fs'.itable i).fields = (fs.itable i).fields ++ newFields (fs.itable i) size := by
  cases truncated with
  | same code equal result => omega
  | stuck code => omega
  | filled code used full result =>
    have none : helperSize (fs.itable i) size = none := by
      have quotient : ((fs.itable i).size : Int).tdiv 4096 = ((fs.itable i).size / 4096 : Nat) :=
          (Int.ofNat_tdiv (fs.itable i).size 4096).symm
      have fits := measured.fits
      have difference : toInt ((size : Int) - (fs.itable i).size) = (size : Int) - (fs.itable i).size :=
        toInt_of_fits (by omega) (by omega)
      rw [helperSize, toInt_size measured.fits, quotient]
      dsimp only
      rw [if_neg (by omega), if_neg used, if_pos (by omega), if_neg (by omega), difference,
        if_neg (by omega)]
    rw [result, withSize_itable, newFields, none, Option.elim_none, List.append_nil]
    rfl
  | @grown start bytes tail code asks some found low room reach inside result =>
    obtain ⟨asked, bound⟩ := asks.helperSize some measured small
    have new := requestedFields_ok (blockRequest_nat bound)
    rw [Int.toNat_natCast] at new
    rw [result, extended_itable, newFields, asked, Option.elim_some, new]
    have appended (extent : A1fsExtent) : ((fs.itable i).appendExtent extent now).fields =
        (fs.itable i).fields ++ [(extent.count, extent.size)] := fields_appendExtent low
    exact appended _
  | shrunk code used smaller result => omega

theorem Truncated.refusal (truncated : Truncated fs i size now fs' r) (failed : r ≠ 0) :
    r = -1 ∧ fs' = fs := by
  cases truncated with
  | stuck code used larger full result => exact ⟨code, result⟩
  | same code | filled code | grown code | shrunk code => exact absurd code failed

variable (range : (fs.sb.sbFirstEmptyDb : Int) ≤ fs.sb.maxIndex)
  (measured : (fs.itable i).Measured) (short : offset + buf.length < 2 ^ 31)
  (fresh : offset + buf.length > (fs.itable i).size →
    fs.attaches i (growthBlocks (fs.itable i) (buf.length + offset : Nat)) = false)
  (inside : buf = [] ∨ offset = 0 ∨
    lands (fieldsForWrite (fs.itable i) buf.length offset) offset = true)

include range measured short fresh inside

theorem a1fsWrite_exact (walk : getInodeNum fs path 0 = .ok (i : Int)) (aligned : offset % 4096 + buf.length ≤ 4096)
    (h : a1fsWrite env fuel fs path buf offset = .ok (fs', r)) :
    Wrote fs i buf offset env.now fs' r := by
  rw [a1fsWrite, walk, ok_bind, if_neg (by omega), bind_eq_ok] at h
  obtain ⟨inode, read, h⟩ := h
  obtain ⟨-, rfl⟩ := inodeAt_ok.mp read
  rw [Int.toNat_natCast] at h
  have rest (fs1 : FsCtx) (resized : if offset + buf.length > (fs.itable i).size
        then Truncated fs i (buf.length + offset) env.now fs1 0 else fs1 = fs)
      (returned : (do
        let (curExtent, found) ← findOffsetExtent (fs1.itable i) (toInt offset) 12 0
        if found < 0 then pure (fs1, -env.errno)
        else do
          let copied ← copyExtents (fs1.itable i) buf (12 - curExtent) fs1 curExtent (toInt offset)
            (toInt buf.length) 0
          pure (copied, toInt buf.length) : Checked (FsCtx × Int)) = .ok (fs', r)) :
      Wrote fs i buf offset env.now fs' r := by
    by_cases none : buf = []
    · subst none
      obtain ⟨rfl, rfl⟩ := writeNothing_ok (by omega) returned
      exact .empty rfl rfl resized
    · have after : (fs1.itable i).Measured ∧ offset + buf.length ≤ (fs1.itable i).size ∧
          (fs1.itable i).fields = fieldsForWrite (fs.itable i) buf.length offset := by
        by_cases beyond : offset + buf.length > (fs.itable i).size
        · rw [if_pos beyond] at resized
          have small : buf.length + offset < 2 ^ 31 := by omega
          rw [fieldsForWrite, if_pos beyond]
          refine ⟨resized.measured measured small, ?_, resized.fields measured small (by omega)⟩
          rw [resized.newSize small]
          omega
        · rw [if_neg beyond] at resized
          rw [fieldsForWrite, if_neg beyond, resized]
          exact ⟨measured, by omega, rfl⟩
      obtain ⟨measured', room, fields⟩ := after
      rw [← fields] at inside
      obtain ⟨code, a, place, result⟩ := writeData_ok none aligned short measured' room
        (inside.resolve_left none) returned
      exact .stored code none resized place result
  dsimp only at h
  split at h
  · rename_i beyond
    rw [bind_eq_ok] at h
    obtain ⟨⟨fs1, t⟩, resize, h⟩ := h
    have truncated := a1fsTruncate_exact range measured (by omega) (fresh beyond) walk resize
    dsimp only at h
    split at h
    · rename_i failed
      obtain ⟨rfl, rfl⟩ := truncated.refusal failed
      cases h
      exact .refused rfl (by omega) truncated rfl
    · rename_i done
      obtain rfl : t = 0 := not_not.mp done
      exact rest fs1 (by rwa [if_pos beyond]) h
  · rename_i within
    rw [pure_bind] at h
    exact rest fs (by rw [if_neg within]) h

end Whole

end ExtentFs
