import ExtentFs.Effects.Bounds
import ExtentFs.Invariants.Files

namespace ExtentFs

open Base

/-- The search for an offset passes over the slots without bytes in use, and the slots from the next one on
    hold the bytes. The slots are given by their numbers of blocks and their sizes. -/
def holdsBytes (fields : List (Nat × Int)) (offset length : Nat) : Prop :=
  let rest := if offset = 0 then fields else fields.dropWhile fun slot => slot.2 = 0
  (offset = 0 ∨ ∃ slot ∈ rest.head?, (offset : Int) ≤ slot.2) ∧
    (length = 0 ∨ offset + length ≤ 4096 * (rest.map Prod.fst).sum)

/-- A call opens no thirteenth extent and looks for blocks that are there: its new entry goes to a
    directory, its truncation is of a regular file, and the bytes it writes have their place in the
    slots that the file has when it has been resized. -/
structure StaysInSlots (fs : FsCtx) (event : Event) : Prop where
  entry : OnEntry fs event.env event.call fun fs _ p => sIsdir (fs.itable p).mode = true ∧ fs.RoomForEntry p
  resize : OnResize fs event.call fun i size => sIsreg (fs.itable i).mode = true ∧
    ∀ bytes ∈ helperSize (fs.itable i) size, fs.RoomForBytes i bytes
  place : OnWrite fs event.call fun i buf offset => offset + buf.length < 2 ^ 31 ∧
    (offset + buf.length > (fs.itable i).size → (fs.itable i).Measured ∧
      fs.attaches i (growthBlocks (fs.itable i) (buf.length + offset : Nat)) = false) ∧
    holdsBytes (fieldsForWrite (fs.itable i) buf.length offset) offset buf.length

section Holds

variable {inode : A1fsInode} {fields : List (Nat × Int)} {offset length : Nat}

instance : Decidable (holdsBytes fields offset length) :=
  inferInstanceAs (Decidable ((_ ∨ _) ∧ (_ ∨ _)))

theorem capacity_fields {before rest : List (Nat × Int)} (split : inode.fields = before ++ rest) :
    inode.capacity before.length = 4096 * (rest.map Prod.fst).sum := by
  have dropped : rest = inode.fields.drop before.length := by rw [split, List.drop_left]
  rw [A1fsInode.capacity, dropped, A1fsInode.fields, ← List.map_drop, List.map_map]
  rfl

theorem holdsBytes_serves (high : inode.lastUsedExtent ≤ 11) (holds : holdsBytes inode.fields offset length) :
    inode.Serves offset length := by
  obtain ⟨ends, room⟩ := holds
  by_cases zero : offset = 0
  · subst zero
    rw [if_pos rfl] at room
    have whole : inode.capacity 0 = 4096 * (inode.fields.map Prod.fst).sum :=
      capacity_fields (List.nil_append _).symm
    exact ⟨0, by omega, .inl ⟨by omega, rfl⟩, by omega⟩
  · rw [if_neg zero] at ends room
    obtain ⟨slot, first, reaches⟩ := ends.resolve_left zero
    have split : inode.fields = (inode.fields.takeWhile fun slot => slot.2 = 0) ++
        inode.fields.dropWhile fun slot => slot.2 = 0 := List.takeWhile_append_dropWhile.symm
    set before := inode.fields.takeWhile fun slot => slot.2 = 0
    have here : inode.fields[before.length]? = some slot := by
      rw [split, List.getElem?_append_right (le_refl _), Nat.sub_self, ← List.head?_eq_getElem?]
      exact first
    obtain ⟨used, same⟩ := fields_some here
    have within := A1fsInode.mem_usedSlots.mp used
    have capacity := capacity_fields split
    refine ⟨before.length, by omega, .inr ⟨by omega, by rwa [same] at reaches, fun m below => ?_⟩, by omega⟩
    have passes : inode.fields[m]? = some before[m] := by
      rw [split, List.getElem?_append_left below, List.getElem?_eq_getElem below]
    obtain ⟨-, skipped⟩ := fields_some passes
    have member : before[m] ∈ before := List.getElem_mem below
    have zero := List.all_eq_true.mp List.all_takeWhile _ member
    rw [skipped] at zero
    simpa using zero

end Holds

theorem Steady.bounded {fs : FsCtx} (steady : Steady fs) : fs.Bounded := by
  intro i
  have high := (steady.sane i).high
  omega

theorem Steady.direct {fs : FsCtx} (steady : Steady fs) {i : Nat} (made : (fs.itable i).mode ≠ 0#32) :
    (fs.itable i).Direct :=
  ⟨(steady.sane i).direct.resolve_right made, (steady.sane i).low⟩

theorem directory_made {mode : BitVec 32} (dir : sIsdir mode = true) : mode ≠ 0#32 := by
  rintro rfl
  cases dir

theorem regular_made {mode : BitVec 32} (regular : sIsreg mode = true) : mode ≠ 0#32 := by
  rintro rfl
  cases regular

section Calls

variable {fs : FsCtx} {env : Env} {fuel : Nat} {call : Call} {path : CString} {buf : List Byte}
  {offset : Nat} {r : Int}

theorem StaysInSlots.newEntry (stays : StaysInSlots fs ⟨call, env, r⟩) (steady : Steady fs)
    {mode : BitVec 32} {noParent : Int} (new : call.newMode = some mode) :
    InSlots (newEntry env fs call.path mode noParent) := by
  refine newEntry_inSlots steady.bounded fun ino p free walk => ?_
  obtain ⟨dir, room⟩ := stays.entry.holds new free walk
  exact ⟨steady.takeInode.direct (directory_made dir), room⟩

theorem StaysInSlots.truncate (stays : StaysInSlots fs ⟨call, env, r⟩) (steady : Steady fs) {size : Int}
    (asked : ∀ i : Nat, getInodeNum fs call.path 0 = .ok (i : Int) →
      call.resizeTo (fs.itable i) = some size) :
    InSlots (a1fsTruncate env fuel fs call.path size) := by
  refine a1fsTruncate_inSlots steady.bounded steady.shaped.range fun i walk => ?_
  obtain ⟨regular, room⟩ := stays.resize.holds walk (asked i walk)
  exact ⟨steady.direct (regular_made regular), room⟩

/-- What a write finds when it has resized the file, read off the file before. -/
theorem StaysInSlots.served (stays : StaysInSlots fs ⟨.write path buf offset, env, r⟩) (steady : Steady fs)
    {i : Nat} (walk : getInodeNum fs path 0 = .ok (i : Int)) {fs1 : FsCtx}
    (written : WritesTo env fuel fs path buf.length offset i fs1) :
    (fs1.itable i).lastUsedExtent ≤ 11 ∧ (fs1.itable i).Serves (toInt offset) (toInt buf.length) := by
  obtain ⟨short, fresh, holds⟩ := stays.place.holds walk
  rw [toInt_of_fits (x := offset) (by omega) (by omega), toInt_of_fits (x := buf.length) (by omega) (by omega)]
  have after : (fs1.itable i).lastUsedExtent ≤ 11 ∧
      (fs1.itable i).fields = fieldsForWrite (fs.itable i) buf.length offset := by
    rw [WritesTo] at written
    rw [fieldsForWrite]
    split at written
    · rename_i beyond
      obtain ⟨measured, apart⟩ := fresh beyond
      have small : buf.length + offset < 2 ^ 31 := by omega
      obtain ⟨j, -, -, resized⟩ := a1fsTruncate_resized steady.shaped.range written
      have truncated := a1fsTruncate_exact steady.shaped.range measured small apart walk written
      rw [if_pos beyond]
      exact ⟨(steady.resized resized).bounded i, truncated.fields measured small (by omega)⟩
    · rename_i within
      rw [if_neg within, written]
      exact ⟨steady.bounded i, rfl⟩
  obtain ⟨bound, fields⟩ := after
  exact ⟨bound, holdsBytes_serves bound (fields ▸ holds)⟩

theorem StaysInSlots.exec (stays : StaysInSlots fs ⟨call, env, r⟩) (steady : Steady fs) :
    InSlots (call.exec env fuel fs) := by
  cases call with
  | create path mode =>
    have new : (Call.create path mode).newMode = some mode := rfl
    exact .ite (fun _ => stays.newEntry steady new) fun _ => .error (by decide)
  | mkdir path mode =>
    have new : (Call.mkdir path mode).newMode = some (mode ||| sIfdir) := rfl
    exact stays.newEntry steady new
  | unlink path => exact a1fsUnlink_inSlots steady.bounded
  | rmdir path => exact a1fsRmdir_inSlots steady.bounded
  | truncate path size => exact stays.truncate steady fun i walk => rfl
  | write path buf offset =>
    refine a1fsWrite_inSlots steady.bounded (fun i walk beyond => ?_) fun i walk fs1 => stays.served steady walk
    refine a1fsTruncate_inSlots steady.bounded steady.shaped.range fun j walk' => ?_
    obtain rfl : i = j := by
      rw [walk] at walk'
      cases walk'
      rfl
    obtain ⟨regular, room⟩ := stays.resize.holds walk (if_pos beyond)
    exact ⟨steady.direct (regular_made regular), room⟩

theorem a1fsGetattr_inSlots (bounded : fs.Bounded) : InSlots (a1fsGetattr fs path) := by
  refine .ite (fun _ => .ok _) fun _ => .ite (fun _ => .ok _) fun _ => ?_
  refine .bind (getInodeNum_inSlots bounded) fun cur _ => .ite (fun _ => .ok _) fun _ => ?_
  exact .bind (inSlots_guard (by decide)) fun inode _ => .ok _

theorem a1fsReaddir_inSlots (bounded : fs.Bounded) : InSlots (a1fsReaddir env fs path) := by
  have name (room addr : Nat) : InSlots (cstringFrom fs room addr) := by
    induction room generalizing addr with
    | zero => exact .error (by decide)
    | succ room ih => exact .ite (fun _ => .ok _) fun _ => .bind (ih _) fun rest _ => .ok _
  refine .ite (fun _ => .ok _) fun _ => .bind (getInodeNum_inSlots bounded) fun cur _ => ?_
  refine .ite (fun _ => .ok _) fun _ => .bind (inSlots_guard (by decide)) fun dir read => ?_
  obtain ⟨-, rfl⟩ := inodeAt_ok.mp read
  refine .bind (Avoids.flatMapM fun k used => ?_) fun names _ => .ok _
  refine .bind (usedSlot_inSlots (bounded _) used) fun extent _ => ?_
  refine Avoids.flatMapM fun j _ => Avoids.flatMapM fun k _ => .bind dentryAddr_inSlots fun addr _ => ?_
  exact .ite (fun _ => .bind (name _ _) fun found _ => .ok _) fun _ => .ok _

end Calls

/-- In the runs of calls that stay in the slots, the extents of every inode are in the slots in every state
    reached, an inode that was made has no indirect block, and no call uses another extent. -/
theorem slots_in_bounds {fs : FsCtx} (run : a1fs.Reaches StaysInSlots fs) :
    (∀ i, -1 ≤ (fs.itable i).lastUsedExtent ∧ (fs.itable i).lastUsedExtent ≤ 11) ∧
    (∀ i, (fs.itable i).mode ≠ 0#32 → (fs.itable i).lastUsedIndirect = -1) ∧
    (∀ fuel event, StaysInSlots fs event → InSlots (event.call.exec event.env fuel fs)) ∧
    (∀ env path (size offset : Nat), (∀ i : Nat, getInodeNum fs path 0 = .ok (i : Int) →
      (offset : Int) ≤ toInt (fs.itable i).size →
        (fs.itable i).Serves (toInt offset) (toInt size)) →
      InSlots (a1fsRead env fs path size offset)) ∧
    ∀ env path, InSlots (a1fsReaddir env fs path) ∧ InSlots (a1fsGetattr fs path) := by
  have steady := steady_of_reaches (run.mono fun _ _ _ => trivial)
  refine ⟨fun i => ⟨(steady.sane i).low, steady.bounded i⟩, fun i made => (steady.direct made).1,
    ?_, ?_, ?_⟩
  · intro fuel event stays
    exact stays.exec steady
  · intro env path size offset serves
    exact a1fsRead_inSlots steady.bounded serves
  · intro env path
    exact ⟨a1fsReaddir_inSlots steady.bounded, a1fsGetattr_inSlots steady.bounded⟩

instance (inode : A1fsInode) : Decidable inode.Measured :=
  decidable_of_iff (-1 ≤ inode.lastUsedExtent ∧ inode.size < 2 ^ 31 ∧
    (inode.lastUsedExtent = -1 → inode.size = 0) ∧ (∀ k ∈ inode.usedSlots, 0 < (inode.iExtent k).count) ∧
      ∀ b ∈ inode.blocks, 4096 * b < 2 ^ 31)
    ⟨fun ⟨a, b, c, d, e⟩ => ⟨a, b, c, d, e⟩, fun ⟨a, b, c, d, e⟩ => ⟨a, b, c, d, e⟩⟩

instance (fs : FsCtx) (event : Event) : Decidable (StaysInSlots fs event) :=
  decidable_of_iff ((OnEntry fs event.env event.call fun fs _ p =>
      sIsdir (fs.itable p).mode = true ∧ fs.RoomForEntry p) ∧
    (OnResize fs event.call fun i size => sIsreg (fs.itable i).mode = true ∧
      ∀ bytes ∈ helperSize (fs.itable i) size, fs.RoomForBytes i bytes) ∧
    OnWrite fs event.call fun i buf offset => offset + buf.length < 2 ^ 31 ∧
      (offset + buf.length > (fs.itable i).size → (fs.itable i).Measured ∧
        fs.attaches i (growthBlocks (fs.itable i) (buf.length + offset : Nat)) = false) ∧
      holdsBytes (fieldsForWrite (fs.itable i) buf.length offset) offset buf.length)
    ⟨fun ⟨a, b, c⟩ => ⟨a, b, c⟩, fun ⟨a, b, c⟩ => ⟨a, b, c⟩⟩

/-- A file with two extents. -/
def slottedRun : Option FsCtx :=
  runCalls StaysInSlots quiet 10 device [.create pathA regularMode, .write pathA [122#8, 122#8] 0,
    .mkdir pathB 0, .truncate pathA 5000, .write pathA [122#8] 1]

theorem slots_in_bounds_run : ∃ fs, slottedRun = some fs ∧ (fs.itable 1).lastUsedIndirect = -1 ∧
    (fs.itable 1).lastUsedExtent = 1 ∧ InSlots (Call.exec quiet 10 fs (.truncate pathA 10000)) := by
  have returns : ∃ fs ∈ slottedRun, (fs.itable 1).mode ≠ 0#32 ∧ (fs.itable 1).lastUsedExtent = 1 ∧
      StaysInSlots fs ⟨.truncate pathA 10000, quiet, 0⟩ := by decide +kernel
  obtain ⟨fs, run, made, two, stays⟩ := returns
  obtain ⟨-, direct, calls, -⟩ := slots_in_bounds (runCalls_reaches (.initial device_initial) run)
  exact ⟨fs, run, direct 1 made, two, calls 10 ⟨.truncate pathA 10000, quiet, 0⟩ stays⟩

def largeDevice : FsCtx := formatted 32 16 1 ⟨0, 0⟩

theorem largeDevice_initial : Initial largeDevice := by
  have g : Geometry 32 16 1 :=
    ⟨by decide, by decide, by decide, by decide, by decide, by decide⟩
  exact ⟨_, formatted_initial g (by decide) (by decide) (by decide +kernel)⟩

/-- A file that is made longer twelve times has twelve extents of one block. -/
def twelveRun : Option FsCtx :=
  runCalls (fun _ _ => True) quiet 10 largeDevice (.create pathA regularMode ::
    (List.range' 1 12).map fun k => .truncate pathA (100 * k : Nat))

/-- An inode that was never made has the field of its indirect block at 0, and a thirteenth extent
    is written behind the slots. -/
theorem slots_in_bounds_fails : ∃ fs, a1fs.Reaches (fun _ _ => True) fs ∧
    (fs.itable 2).lastUsedIndirect ≠ -1 ∧ ¬ InSlots (Call.exec quiet 10 fs (.truncate pathA 1300)) := by
  have full : ∃ fs ∈ twelveRun, (fs.itable 2).lastUsedIndirect ≠ -1 ∧
      ∃ e, Call.exec quiet 10 fs (.truncate pathA 1300) = .error e ∧ e = .badSlot := by
    decide +kernel
  obtain ⟨fs, run, unmade, e, fault, slot⟩ := full
  refine ⟨fs, runCalls_reaches (.initial largeDevice_initial) run, unmade, ?_⟩
  intro inside
  exact inside e fault (.inl slot)

end ExtentFs
