import ExtentFs.Base.Paths
import ExtentFs.Effects.Entries
import ExtentFs.Model.System

namespace ExtentFs

open Base Base.Bytes

def nameIs (m : Bytes) : (addr : Nat) → List Byte → Bool
  | addr, [] => m addr == 0#8
  | addr, c :: cs => m addr == c && nameIs m (addr + 1) cs

section Names

variable {m m' : Bytes} {a a' : Nat} {name other : List Byte} {fs : FsCtx} {r : Bool}

theorem nameIs_congr (same : ∀ k ≤ name.length, m (a + k) = m' (a' + k)) :
    nameIs m a name = nameIs m' a' name := by
  induction name generalizing a a' with
  | nil =>
    have first := same 0 (by simp)
    simp only [Nat.add_zero] at first
    rw [nameIs, nameIs, first]
  | cons c cs ih =>
    have first := same 0 (by simp)
    simp only [Nat.add_zero] at first
    have rest : nameIs m (a + 1) cs = nameIs m' (a' + 1) cs := by
      refine ih fun k bound => ?_
      have next := same (k + 1) (by simpa using bound)
      rwa [Nat.add_comm k 1, ← Nat.add_assoc, ← Nat.add_assoc] at next
    rw [nameIs, nameIs, first, rest]

theorem nameIs_of_bytes (bytes : ∀ k ≤ name.length, m (a + k) = (name ++ [0#8]).getD k 0#8) :
    nameIs m a name = true := by
  induction name generalizing a with
  | nil =>
    have first := bytes 0 (by simp)
    simpa [nameIs] using first
  | cons c cs ih =>
    have first := bytes 0 (by simp)
    have rest : nameIs m (a + 1) cs = true := by
      refine ih fun k bound => ?_
      have next := bytes (k + 1) (by simpa using bound)
      rwa [List.cons_append, List.getD_cons_succ, Nat.add_comm k 1, ← Nat.add_assoc] at next
    rw [Nat.add_zero, List.cons_append, List.getD_cons_zero] at first
    rw [nameIs, first, rest, beq_self_eq_true, Bool.true_and]

theorem nameIs_store : nameIs (m.store a (name ++ [0#8])) a name = true := by
  refine nameIs_of_bytes fun k bound => ?_
  have inside : k < (name ++ [0#8]).length := by
    rw [List.length_append, List.length_singleton]
    omega
  rw [store_inside inside, List.getD_eq_getElem _ _ inside]

theorem nameIs_unique (noNul : 0#8 ∉ name) (noNul' : 0#8 ∉ other) (first : nameIs m a name = true)
    (second : nameIs m a other = true) : name = other := by
  induction name generalizing a other with
  | nil =>
    cases other with
    | nil => rfl
    | cons c cs =>
      simp only [nameIs, beq_iff_eq, Bool.and_eq_true] at first second
      exact absurd (by simp [← second.1, first]) noNul'
  | cons c cs ih =>
    cases other with
    | nil =>
      simp only [nameIs, beq_iff_eq, Bool.and_eq_true] at first second
      exact absurd (by simp [← first.1, second]) noNul
    | cons c' cs' =>
      simp only [nameIs, beq_iff_eq, Bool.and_eq_true] at first second
      rw [← first.1, ← second.1, ih (fun member => noNul (by simp [member]))
        (fun member => noNul' (by simp [member])) first.2 second.2]

theorem nameIs_head (noNul : 0#8 ∉ name) (some : name ≠ []) (named : nameIs m a name = true) :
    m a ≠ 0#8 := by
  cases name with
  | nil => exact absurd rfl some
  | cons c cs =>
    simp only [nameIs, beq_iff_eq, Bool.and_eq_true] at named
    intro zero
    exact noNul (by simp [← named.1, zero])

theorem byteAt_ok {b : Byte} : fs.byteAt a = .ok b ↔ a < fs.dataSize ∧ b = fs.data a := by
  rw [FsCtx.byteAt, guard_eq_ok, Except.ok.injEq]
  exact and_congr_right fun _ => eq_comm

theorem strcmp_ok (h : fs.strcmp a name = .ok r) : r = nameIs fs.data a name := by
  induction name generalizing a with
  | nil =>
    rw [FsCtx.strcmp, bind_eq_ok] at h
    obtain ⟨b, read, h⟩ := h
    obtain ⟨-, rfl⟩ := byteAt_ok.mp read
    cases h
    rfl
  | cons c cs ih =>
    rw [FsCtx.strcmp, bind_eq_ok] at h
    obtain ⟨b, read, h⟩ := h
    obtain ⟨-, rfl⟩ := byteAt_ok.mp read
    rw [nameIs]
    split at h
    · rename_i same
      rw [ih h, same, beq_self_eq_true, Bool.true_and]
    · rename_i differ
      cases h
      rw [beq_eq_false_iff_ne.mpr differ, Bool.false_and]

theorem strcmp_returns (inside : a + name.length < fs.dataSize) :
    fs.strcmp a name = .ok (nameIs fs.data a name) := by
  have returns : ∃ r, fs.strcmp a name = .ok r := by
    induction name generalizing a with
    | nil =>
      rw [FsCtx.strcmp, byteAt_ok.mpr ⟨by simpa using inside, rfl⟩, ok_bind]
      exact ⟨_, rfl⟩
    | cons c cs ih =>
      rw [List.length_cons] at inside
      rw [FsCtx.strcmp, byteAt_ok.mpr ⟨by omega, rfl⟩, ok_bind]
      split
      · exact ih (by omega)
      · exact ⟨_, rfl⟩
  obtain ⟨r, compared⟩ := returns
  rw [compared, strcmp_ok compared]

/-- A comparison stops at the end of the string in the image. -/
theorem strcmp_terminated {k : Nat} (noNul : 0#8 ∉ name) (inside : a + k < fs.dataSize)
    (zero : fs.data (a + k) = 0#8) : fs.strcmp a name = .ok (nameIs fs.data a name) := by
  have returns : ∃ r, fs.strcmp a name = .ok r := by
    induction name generalizing a k with
    | nil =>
      rw [FsCtx.strcmp, byteAt_ok.mpr ⟨by omega, rfl⟩, ok_bind]
      exact ⟨_, rfl⟩
    | cons c cs ih =>
      rw [FsCtx.strcmp, byteAt_ok.mpr ⟨by omega, rfl⟩, ok_bind]
      split
      · rename_i same
        cases k with
        | zero =>
          rw [Nat.add_zero] at zero
          exact absurd (by simp [← same, zero]) noNul
        | succ k =>
          have next : a + (k + 1) = a + 1 + k := by omega
          rw [next] at inside zero
          exact ih (fun member => noNul (by simp [member])) inside zero
      · exact ⟨_, rfl⟩
  obtain ⟨r, compared⟩ := returns
  rw [compared, strcmp_ok compared]

theorem nameIs_end (named : nameIs m a name = true) : m (a + name.length) = 0#8 := by
  induction name generalizing a with
  | nil => simpa [nameIs] using named
  | cons c cs ih =>
    rw [nameIs, Bool.and_eq_true] at named
    have next : a + (c :: cs).length = a + 1 + cs.length := by
      rw [List.length_cons]
      omega
    rw [next]
    exact ih named.2

end Names

section Slots

variable {a a' b x : Nat} {dir : A1fsInode}

theorem blockEntries_place (member : a ∈ blockEntries b) :
    a / 4096 = b ∧ a % 256 = 0 ∧ a + 256 ≤ 4096 * b + 4096 := by
  obtain ⟨k, bound, rfl⟩ := mem_blockEntries.mp member
  omega

theorem entry_block (member : a ∈ dir.entries) (within : a ≤ x) (before : x < a + 256) :
    x / 4096 ∈ dir.blocks := by
  obtain ⟨b, block, slot⟩ := A1fsInode.mem_entries.mp member
  obtain ⟨rfl, aligned, fits⟩ := blockEntries_place slot
  have same : x / 4096 = a / 4096 := by omega
  rwa [same]

theorem entries_apart (first : a ∈ dir.entries) (second : a' ∈ dir.entries) (differ : a ≠ a') :
    a + 256 ≤ a' ∨ a' + 256 ≤ a := by
  obtain ⟨b, -, slot⟩ := A1fsInode.mem_entries.mp first
  obtain ⟨b', -, slot'⟩ := A1fsInode.mem_entries.mp second
  have place := blockEntries_place slot
  have place' := blockEntries_place slot'
  omega

theorem blockEntries_nodup : (blockEntries b).Nodup := by
  refine List.Nodup.map (fun k k' same => ?_) (List.nodup_range' 256)
  omega

theorem entries_nodup (nodup : dir.blocks.Nodup) : dir.entries.Nodup := by
  rw [A1fsInode.entries, List.nodup_flatMap]
  refine ⟨fun b _ => blockEntries_nodup, nodup.imp fun {b b'} differ => ?_⟩
  intro a first second
  have place := blockEntries_place first
  have place' := blockEntries_place second
  omega

theorem entries_length : dir.entries.length = 16 * dir.blocks.length := by
  rw [A1fsInode.entries]
  induction dir.blocks with
  | nil => rfl
  | cons b l ih =>
    have block : (blockEntries b).length = 16 := rfl
    rw [List.flatMap_cons, List.length_append, ih, block, List.length_cons]
    omega

end Slots

section Scan

variable {fs : FsCtx} {dir : A1fsInode} {token : List Byte}

/-- The blocks of a directory can be read without leaving the data region. -/
structure FsCtx.Readable (fs : FsCtx) (dir : A1fsInode) : Prop where
  slots : dir.lastUsedExtent < 12
  inside : ∀ b ∈ dir.blocks, 4096 * b < 2 ^ 31 ∧ 4096 * b + 4096 ≤ fs.dataSize

theorem scanDentries_eq (readable : fs.Readable dir) {β : Type}
    (body : Nat → Checked (Option β)) :
    fs.scanDentries dir body = dir.entries.findSomeM? body := by
  rw [A1fsInode.entries, findSomeM?_flatMap, A1fsInode.blocks, findSomeM?_flatMap,
    FsCtx.scanDentries]
  refine findSomeM?_congr fun i slot => ?_
  have used := A1fsInode.mem_usedSlots.mp slot
  have last := readable.slots
  have read : dir.extentAt i = .ok (dir.iExtent i) := if_pos (by omega)
  rw [read, ok_bind]
  refine findSomeM?_congr fun j member => ?_
  have inside := readable.inside j (A1fsInode.mem_blocks.mpr ⟨i, slot, member⟩)
  rw [blockEntries, findSomeM?_map]
  refine findSomeM?_congr fun k entry => ?_
  rw [List.mem_range'] at entry
  rw [dentryAddr_ok.mpr ⟨inside.1, by omega, rfl⟩, ok_bind]

theorem findIno_eq (readable : fs.Readable dir) {ino : Int} :
    fs.findIno dir ino = .ok (dir.entries.find? fun a => fs.dentryIno a = ino) := by
  have total : ∃ r, fs.findIno dir ino = .ok r := by
    rw [FsCtx.findIno, scanDentries_eq readable]
    exact ⟨_, findSomeM?_ok fun a _ => rfl⟩
  obtain ⟨r, found⟩ := total
  rw [found, findIno_ok found]

/-- The number in the first entry with a name, -1 without one. -/
def FsCtx.entryNamed (fs : FsCtx) (dir : A1fsInode) (token : List Byte) : Int :=
  ((dir.entries.find? fun a => nameIs fs.data (a + 4) token).map fs.dentryIno).getD (-1)

theorem findSome?_ite {l : List Nat} {p : Nat → Bool} {f : Nat → Int} :
    (l.findSome? fun a => if p a = true then some (f a) else none) = (l.find? p).map f := by
  induction l with
  | nil => rfl
  | cons a l ih =>
    rw [List.findSome?_cons, List.find?_cons]
    cases test : p a with
    | true => simp
    | false => simpa using ih

/-- A lookup in a directory is a scan of its entries. -/
theorem inodeLookup_scan {d : Nat} {r : Int} : inodeLookup fs d token = .ok r ↔
    (d : Int) < fs.sb.sbInodesCount ∧ ∃ found,
      (fs.scanDentries (fs.itable d) fun addr => do
        if ← fs.strcmp (addr + 4) token then return some (fs.dentryIno addr) else return none) = .ok found ∧
      r = found.getD (-1) := by
  rw [inodeLookup, if_neg (by omega), inodeAt_bind_ok]
  constructor
  · rintro ⟨i, same, inside, h⟩
    obtain rfl : d = i := by omega
    rw [bind_eq_ok] at h
    obtain ⟨found, scan, h⟩ := h
    exact ⟨inside, found, scan, (pure_eq_ok.mp h).symm⟩
  · rintro ⟨inside, found, scan, rfl⟩
    exact ⟨d, rfl, inside, bind_eq_ok.mpr ⟨found, scan, rfl⟩⟩

theorem inodeLookup_ok {d : Nat} {r : Int} (h : inodeLookup fs d token = .ok r) :
    (d : Int) < fs.sb.sbInodesCount ∧ r = fs.entryNamed (fs.itable d) token := by
  obtain ⟨inside, found, scan, rfl⟩ := inodeLookup_scan.mp h
  refine ⟨inside, ?_⟩
  have search := findSomeM?_refine (q := fun a => .ok (if nameIs fs.data (a + 4) token = true
    then some (fs.dentryIno a) else none)) (fun a _ s test => ?_) (scanDentries_ok scan)
  · rw [findSomeM?_ok fun a _ => rfl, findSome?_ite] at search
    cases search
    rfl
  · rw [bind_eq_ok] at test
    obtain ⟨same, compare, test⟩ := test
    obtain rfl := strcmp_ok compare
    rw [← test]
    split <;> rfl

theorem inodeLookup_compares {d : Nat} (count : (d : Int) < fs.sb.sbInodesCount)
    (readable : fs.Readable (fs.itable d)) (compares : ∀ a ∈ (fs.itable d).entries,
      fs.strcmp (a + 4) token = .ok (nameIs fs.data (a + 4) token)) :
    inodeLookup fs d token = .ok (fs.entryNamed (fs.itable d) token) := by
  have total : ∃ r, inodeLookup fs d token = .ok r := by
    rw [inodeLookup, if_neg (by omega), inodeAt_ok.mpr ⟨⟨by omega, count⟩, rfl⟩, ok_bind,
      Int.toNat_natCast, scanDentries_eq readable, findSomeM?_congr
        (q := fun a => .ok (if nameIs fs.data (a + 4) token = true then some (fs.dentryIno a)
          else none)) fun a member => ?_, findSomeM?_ok fun a _ => rfl, ok_bind]
    · exact ⟨_, rfl⟩
    · rw [compares a member, ok_bind]
      split <;> rfl
  obtain ⟨r, found⟩ := total
  rw [found, (inodeLookup_ok found).2]

theorem inodeLookup_returns {d : Nat} (count : (d : Int) < fs.sb.sbInodesCount)
    (readable : fs.Readable (fs.itable d)) (short : token.length < a1fsNameMax) :
    inodeLookup fs d token = .ok (fs.entryNamed (fs.itable d) token) := by
  apply inodeLookup_compares count readable
  intro a member
  obtain ⟨b, block, slot⟩ := A1fsInode.mem_entries.mp member
  have place := blockEntries_place slot
  have inside := readable.inside b block
  rw [a1fsNameMax] at short
  exact strcmp_returns (by omega)

end Scan

section Root

variable {fs : FsCtx} {path : CString}

theorem lookup_empty {token : List Byte} (some : 0 < fs.sb.sbInodesCount)
    (unused : (fs.itable 0).lastUsedExtent = -1) : inodeLookup fs 0 token = .ok (-1) := by
  have scan {β : Type} (body : Nat → Checked (Option β)) :
      fs.scanDentries (fs.itable 0) body = .ok none := by
    rw [FsCtx.scanDentries, A1fsInode.usedSlots, unused]
    rfl
  have root : fs.inodeAt 0 = .ok (fs.itable 0) := inodeAt_ok.mpr ⟨⟨by omega, some⟩, rfl⟩
  rw [inodeLookup, if_neg (by decide), root, ok_bind]
  change (fs.scanDentries (fs.itable 0) _ >>= _) = _
  rw [scan]
  rfl

theorem walkTokens_empty (some : 0 < fs.sb.sbInodesCount) (unused : (fs.itable 0).lastUsedExtent = -1)
    {tokens : List (List Byte)} {cur : Int} (start : cur = 0 ∨ cur = -1) :
    walkTokens fs tokens 0 cur = .ok (0, if tokens = [] then cur else -1) := by
  induction tokens generalizing cur with
  | nil => rfl
  | cons token tokens ih =>
    have par : (if cur ≠ -1 then cur else 0) = 0 := by
      rcases start with rfl | rfl
      · rfl
      · rfl
    rw [walkTokens, par, lookup_empty some unused, ok_bind, ih (.inr rfl)]
    split <;> rfl

variable (path) in
theorem getInodeNum_empty (some : 0 < fs.sb.sbInodesCount) (unused : (fs.itable 0).lastUsedExtent = -1) :
    getInodeNum fs path 1 = .ok 0 ∧
      getInodeNum fs path 0 = .ok (if strtok path.bytes = [] then 0 else -1) := by
  rw [getInodeNum, getInodeNum, walkTokens_empty some unused (.inl rfl)]
  exact ⟨rfl, rfl⟩

end Root

end ExtentFs
