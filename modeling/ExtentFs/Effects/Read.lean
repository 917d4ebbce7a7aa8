import ExtentFs.Effects.Slots

namespace ExtentFs

open Base

def Buffer.filled (data : Bytes) (a n : Nat) : Buffer := fun x => if x < n then some (data (a + x)) else none

/-- No slot behind one that never got blocks has got some. -/
def A1fsInode.FilledInOrder (inode : A1fsInode) : Prop :=
  ∀ m, m + 1 < 12 → (inode.iExtent m).count = 0 → (inode.iExtent (m + 1)).count = 0

/-- The slot at which the search for an offset ends. -/
inductive Finds (inode : A1fsInode) : (offset k : Nat) → Prop
  | start : Finds inode 0 0
  | slot {offset k : Nat} (some : 0 < offset) (inside : k < 12)
      (reaches : (offset : Int) ≤ (inode.iExtent k).size) (passed : ∀ m < k, (inode.iExtent m).size = 0) :
      Finds inode offset k

section Search

variable {inode : A1fsInode} {offset slots cur : Nat} {r : Nat × Int}

theorem findOffsetExtent_iff (some : 0 < offset) (total : cur + slots = 12) :
    findOffsetExtent inode offset slots cur = .ok r ↔ ∃ k, r = (k, 0) ∧ cur ≤ k ∧ k < 12 ∧
      (offset : Int) ≤ (inode.iExtent k).size ∧
      ∀ m, cur ≤ m → m < k → (inode.iExtent m).size = 0 := by
  induction slots generalizing cur with
  | zero =>
    constructor
    · intro h
      cases h
    · rintro ⟨k, -, above, below, -⟩
      omega
  | succ slots ih =>
    have read : inode.extentAt cur = .ok (inode.iExtent cur) := if_pos (by omega)
    rw [findOffsetExtent, if_neg (by omega), if_pos (by omega), read, ok_bind]
    by_cases short : (inode.iExtent cur).size < offset
    · rw [if_pos short]
      by_cases zero : (inode.iExtent cur).size = 0
      · rw [if_pos zero, ih (by omega)]
        constructor
        · rintro ⟨k, same, above, below, reaches, passed⟩
          refine ⟨k, same, by omega, below, reaches, fun m low high => ?_⟩
          rcases Nat.eq_or_lt_of_le low with rfl | later
          · exact zero
          · exact passed m later high
        · rintro ⟨k, same, above, below, reaches, passed⟩
          have later : cur ≠ k := by
            rintro rfl
            omega
          exact ⟨k, same, by omega, below, reaches, fun m low high => passed m (by omega) high⟩
      · rw [if_neg zero]
        constructor
        · intro h
          cases h
        · rintro ⟨k, -, above, below, reaches, passed⟩
          rcases Nat.eq_or_lt_of_le above with rfl | later
          · omega
          · exact absurd (passed cur (le_refl _) later) zero
    · rw [if_neg short]
      constructor
      · intro h
        cases h
        exact ⟨cur, rfl, le_refl _, by omega, by omega, fun m low high => by omega⟩
      · rintro ⟨k, rfl, above, below, reaches, passed⟩
        rcases Nat.eq_or_lt_of_le above with rfl | later
        · rfl
        · have zero := passed cur (le_refl _) later
          omega

theorem finds_iff : findOffsetExtent inode offset 12 0 = .ok r ↔ ∃ k, r = (k, 0) ∧ Finds inode offset k := by
  by_cases zero : offset = 0
  · subst zero
    have here : findOffsetExtent inode (0 : Nat) 12 0 = .ok (0, 0) := rfl
    rw [here]
    constructor
    · intro h
      cases h
      exact ⟨0, rfl, .start⟩
    · rintro ⟨k, rfl, finds⟩
      cases finds with
      | start => rfl
      | slot some => omega
  · rw [findOffsetExtent_iff (by omega) (by omega)]
    constructor
    · rintro ⟨k, same, -, inside, reaches, passed⟩
      exact ⟨k, same, .slot (by omega) inside reaches fun m below => passed m (by omega) below⟩
    · rintro ⟨k, same, finds⟩
      cases finds with
      | start => exact absurd rfl zero
      | slot some inside reaches passed =>
        exact ⟨k, same, by omega, inside, reaches, fun m _ below => passed m below⟩

end Search

section Copy

variable {fs : FsCtx} {inode : A1fsInode} {buf buf' : Buffer} {n slots cur : Nat}

theorem extentData_nat {start offset : Nat} : extentData start offset = (start * 4096 % 2 ^ 32 + offset : Nat) := by
  rw [extentData, Int.natCast_add]

theorem copy_whole {a : Nat} :
    (fs.loadBytes a n >>= fun bytes => buf.copy n 0 bytes) = .ok buf' ↔
      a + n ≤ fs.dataSize ∧ buf' = fun x => if x < n then some (fs.data (a + x)) else buf x := by
  have copied (inside : a + n ≤ fs.dataSize) :
      (fs.loadBytes a n >>= fun bytes => buf.copy n 0 bytes) =
        .ok fun x => if x < n then some (fs.data (a + x)) else buf x := by
    rw [FsCtx.loadBytes, if_pos ⟨by omega, by omega⟩, ok_bind, Buffer.copy,
      if_pos ⟨by omega, by rw [List.length_map, List.length_range]; omega⟩]
    congr 1
    funext x
    rw [List.length_map, List.length_range]
    by_cases within : x < n
    · rw [if_pos ⟨by omega, by omega⟩, if_pos within, List.getElem?_map,
        List.getElem?_range (by simpa using within)]
      simp
    · rw [if_neg (by omega), if_neg within]
  by_cases inside : a + n ≤ fs.dataSize
  · rw [copied inside, Except.ok.injEq]
    exact ⟨fun same => ⟨inside, same.symm⟩, fun same => same.2.symm⟩
  · have fault : fs.loadBytes a n = .error .outOfBounds := if_neg (by omega)
    rw [fault, error_bind]
    constructor
    · intro h
      cases h
    · rintro ⟨room, -⟩
      exact absurd room inside

/-- The last chunk cannot be copied to a place before the buffer or one that leaves no room. -/
theorem copy_outside {a : Int} {index remaining : Int} (some : 0 ≤ remaining)
    (bad : index < 0 ∨ n < index + remaining) :
    (fs.loadBytes a remaining.toNat >>= fun bytes => buf.copy n index bytes) ≠ .ok buf' := by
  intro h
  rw [bind_eq_ok] at h
  obtain ⟨bytes, load, h⟩ := h
  obtain ⟨-, same⟩ := guard_eq_ok.mp load
  cases same
  obtain ⟨⟨low, high⟩, -⟩ := guard_eq_ok.mp h
  rw [List.length_map, List.length_range] at high
  omega

theorem filled_over {data : Bytes} {a : Nat} (blank : ∀ x, ¬ x < n → buf x = none) :
    (fun x => if x < n then some (data (a + x)) else buf x) = Buffer.filled data a n := by
  funext x
  rw [Buffer.filled]
  split
  · rfl
  · rename_i outside
    exact blank x outside

theorem counts_end (ordered : inode.FilledInOrder) (none : (inode.iExtent cur).count = 0) :
    ∀ m, cur ≤ m → m < 12 → (inode.iExtent m).count = 0 := by
  intro m above
  induction above with
  | refl => exact fun _ => none
  | step _ before => exact fun inside => ordered _ inside (before (by omega))

/-- A turn of the loop that does not start inside an extent. -/
theorem readExtents_cases {remaining index : Int} (some : 0 < remaining)
    (h : readExtents fs inode n slots buf cur 0 remaining index = .ok buf') :
    ∃ rest, slots = rest + 1 ∧ cur < 12 ∧
      ((remaining ≤ 4096 * (inode.iExtent cur).count ∧
          ∃ a, (fs.loadBytes a remaining.toNat >>= fun bytes => buf.copy n index bytes) = .ok buf') ∨
        (4096 * (inode.iExtent cur).count < remaining ∧ ∃ copied,
          readExtents fs inode n rest copied (cur + 1) 0 (remaining - 4096 * (inode.iExtent cur).count)
            (4096 * (inode.iExtent cur).count) = .ok buf')) := by
  cases slots with
  | zero =>
    rw [readExtents, if_pos some] at h
    cases h
  | succ slots =>
    rw [readExtents, if_pos some, bind_eq_ok] at h
    obtain ⟨extent, read, h⟩ := h
    obtain ⟨inside, same⟩ := guard_eq_ok.mp read
    cases same
    rw [bind_eq_ok] at h
    obtain ⟨bytes, arith, h⟩ := h
    obtain ⟨-, rfl⟩ := intArith_ok.mp arith
    have room : ((inode.iExtent cur).count : Int) * 4096 - 0 = 4096 * (inode.iExtent cur).count := by omega
    dsimp only at h
    rw [room] at h
    refine ⟨slots, rfl, inside, ?_⟩
    split at h
    · rename_i short
      rw [bind_eq_ok] at h
      obtain ⟨loaded, -, h⟩ := h
      rw [bind_eq_ok] at h
      obtain ⟨copied, -, h⟩ := h
      rw [bind_eq_ok] at h
      obtain ⟨rest, arith, h⟩ := h
      obtain ⟨-, rfl⟩ := intArith_ok.mp arith
      exact .inr ⟨short, copied, h⟩
    · rename_i fits
      exact .inl ⟨not_lt.mp fits, _, h⟩

theorem readExtents_empty (empty : ∀ m, cur ≤ m → m < 12 → (inode.iExtent m).count = 0)
    {remaining index : Int} (some : 0 < remaining) :
    readExtents fs inode n slots buf cur 0 remaining index ≠ .ok buf' := by
  induction slots generalizing buf cur remaining index with
  | zero =>
    intro h
    obtain ⟨rest, none, -⟩ := readExtents_cases some h
    cases none
  | succ slots ih =>
    intro h
    obtain ⟨rest, same, inside, turn⟩ := readExtents_cases some h
    cases same
    rw [empty cur (le_refl _) inside] at turn
    rcases turn with ⟨fits, -⟩ | ⟨-, copied, next⟩
    · omega
    · exact ih (fun m above => empty m (by omega)) (by omega) next

/-- Nor do slots with blocks when the last chunk would not fit in the buffer. -/
theorem readExtents_bad (ordered : inode.FilledInOrder)
    (small : n ≤ 4096) {remaining index : Int} (some : 0 < remaining)
    (bad : index < 0 ∨ n < index + remaining) :
    readExtents fs inode n slots buf cur 0 remaining index ≠ .ok buf' := by
  induction slots generalizing buf cur remaining index with
  | zero =>
    intro h
    obtain ⟨rest, none, -⟩ := readExtents_cases some h
    cases none
  | succ slots ih =>
    by_cases none : (inode.iExtent cur).count = 0
    · exact readExtents_empty (counts_end ordered none) some
    · intro h
      obtain ⟨rest, same, -, ⟨-, a, copy⟩ | ⟨short, copied, next⟩⟩ := readExtents_cases some h
      · exact copy_outside (by omega) bad copy
      · cases same
        exact ih (by omega) (.inr (by omega)) next

end Copy

/-- The address from which a request is served when the search ends at slot `k`. At the end of the
    slot's extent the block behind it is copied first, then the start of the next extent. -/
inductive Source (fs : FsCtx) (inode : A1fsInode) (n offset k : Nat) : Nat → Prop
  | within (before : offset < 4096 * (inode.iExtent k).count) (small : 4096 * (inode.iExtent k).count < 2 ^ 31)
      (room : (inode.iExtent k).start * 4096 % 2 ^ 32 + offset + n ≤ fs.dataSize) :
      Source fs inode n offset k ((inode.iExtent k).start * 4096 % 2 ^ 32 + offset)
  | next (full : offset = 4096 * (inode.iExtent k).count) (small : 4096 * (inode.iExtent k).count < 2 ^ 31)
      (inside : k + 1 < 12) (some : 0 < (inode.iExtent (k + 1)).count)
      (small' : 4096 * (inode.iExtent (k + 1)).count < 2 ^ 31)
      (behind : (inode.iExtent k).start * 4096 % 2 ^ 32 + offset + n ≤ fs.dataSize)
      (room : (inode.iExtent (k + 1)).start * 4096 % 2 ^ 32 + n ≤ fs.dataSize) :
      Source fs inode n offset k ((inode.iExtent (k + 1)).start * 4096 % 2 ^ 32)

section Loop

variable {fs : FsCtx} {inode : A1fsInode} {buf buf' : Buffer} {n offset slots k : Nat}

theorem readExtents_within (some : 0 < n) (inside : k < 12)
    (fits : offset + n ≤ 4096 * (inode.iExtent k).count) :
    readExtents fs inode n (slots + 1) buf k offset n 0 = .ok buf' ↔
      4096 * (inode.iExtent k).count < 2 ^ 31 ∧
      (inode.iExtent k).start * 4096 % 2 ^ 32 + offset + n ≤ fs.dataSize ∧
      buf' = fun x => if x < n
        then Option.some (fs.data ((inode.iExtent k).start * 4096 % 2 ^ 32 + offset + x)) else buf x := by
  have read : inode.extentAt k = .ok (inode.iExtent k) := if_pos inside
  rw [readExtents, if_pos (by omega), read, ok_bind, extentData_nat, ← copy_whole, bind_eq_ok]
  constructor
  · rintro ⟨bytes, arith, h⟩
    obtain ⟨bounds, rfl⟩ := intArith_ok.mp arith
    dsimp only at h
    rw [if_neg (by omega), Int.toNat_natCast] at h
    exact ⟨by omega, h⟩
  · rintro ⟨small, h⟩
    refine ⟨_, intArith_ok.mpr ⟨⟨by omega, by omega⟩, rfl⟩, ?_⟩
    dsimp only
    rw [if_neg (by omega), Int.toNat_natCast]
    exact h

theorem readExtents_first (some : 0 < n) (inside : k < 12) (fits : n ≤ 4096 * (inode.iExtent k).count) :
    readExtents fs inode n (slots + 1) buf k 0 n 0 = .ok buf' ↔
      4096 * (inode.iExtent k).count < 2 ^ 31 ∧
      (inode.iExtent k).start * 4096 % 2 ^ 32 + n ≤ fs.dataSize ∧
      buf' = fun x => if x < n
        then Option.some (fs.data ((inode.iExtent k).start * 4096 % 2 ^ 32 + x)) else buf x :=
  readExtents_within some inside (by omega : 0 + n ≤ 4096 * (inode.iExtent k).count)

/-- One turn of the loop over an extent that does not hold the rest. -/
theorem readExtents_turn {remaining index : Int} (some : 0 < remaining) (inside : k < 12)
    (short : 4096 * (inode.iExtent k).count < remaining + offset) :
    readExtents fs inode n (slots + 1) buf k offset remaining index = .ok buf' ↔
      4096 * (inode.iExtent k).count < 2 ^ 31 ∧
      (inode.iExtent k).start * 4096 % 2 ^ 32 + offset + n ≤ fs.dataSize ∧
      (-2 ^ 31 ≤ remaining - (4096 * (inode.iExtent k).count - offset : Int) ∧
        remaining - (4096 * (inode.iExtent k).count - offset : Int) < 2 ^ 31) ∧
      readExtents fs inode n slots (fun x => if x < n
        then Option.some (fs.data ((inode.iExtent k).start * 4096 % 2 ^ 32 + offset + x)) else buf x)
        (k + 1) 0 (remaining - (4096 * (inode.iExtent k).count - offset : Int))
        (4096 * (inode.iExtent k).count - offset : Int) = .ok buf' := by
  have read : inode.extentAt k = .ok (inode.iExtent k) := if_pos inside
  have room : ((inode.iExtent k).count : Int) * 4096 - offset = 4096 * (inode.iExtent k).count - offset := by
    omega
  rw [readExtents, if_pos some, read, ok_bind, extentData_nat, bind_eq_ok]
  constructor
  · rintro ⟨bytes, arith, h⟩
    obtain ⟨bounds, rfl⟩ := intArith_ok.mp arith
    dsimp only at h
    rw [room, if_pos (by omega), ← bind_assoc, bind_eq_ok] at h
    obtain ⟨copied, copy, h⟩ := h
    obtain ⟨inRegion, rfl⟩ := copy_whole.mp copy
    rw [bind_eq_ok] at h
    obtain ⟨rest, arith', h⟩ := h
    obtain ⟨bounds', rfl⟩ := intArith_ok.mp arith'
    exact ⟨by omega, inRegion, bounds', h⟩
  · rintro ⟨small, inRegion, bounds', h⟩
    refine ⟨_, intArith_ok.mpr ⟨⟨by omega, by omega⟩, rfl⟩, ?_⟩
    dsimp only
    rw [room, if_pos (by omega), ← bind_assoc, copy_whole.mpr ⟨inRegion, rfl⟩, ok_bind,
      intArith_ok.mpr ⟨bounds', rfl⟩, ok_bind]
    exact h

theorem readExtents_source (some : 0 < n) (aligned : offset % 4096 + n ≤ 4096) (inside : k < 12)
    (ordered : inode.FilledInOrder) :
    readExtents fs inode n (12 - k) (fun _ => none) k offset n 0 = .ok buf ↔
      ∃ a, Source fs inode n offset k a ∧ buf = Buffer.filled fs.data a n := by
  obtain ⟨slots, left⟩ : ∃ slots, 12 - k = slots + 1 := ⟨11 - k, by omega⟩
  rw [left]
  rcases Nat.lt_trichotomy offset (4096 * (inode.iExtent k).count) with before | full | behind
  · rw [readExtents_within some inside (by omega)]
    constructor
    · rintro ⟨small, room, same⟩
      exact ⟨_, .within before small room, same⟩
    · rintro ⟨a, source, same⟩
      cases source with
      | within _ small room => exact ⟨small, room, same⟩
      | next full => omega
  · rw [readExtents_turn (by omega) inside (by omega)]
    have rest : (n : Int) - (4096 * (inode.iExtent k).count - offset) = n := by omega
    have index : (4096 * (inode.iExtent k).count - offset : Int) = 0 := by omega
    have bounds : -2 ^ 31 ≤ (n : Int) ∧ (n : Int) < 2 ^ 31 := by omega
    rw [rest, index]
    constructor
    · rintro ⟨small, room, -, next⟩
      by_cases none : (inode.iExtent (k + 1)).count = 0
      · exact absurd next (readExtents_empty (counts_end ordered none) (by omega))
      · cases slots with
        | zero =>
          rw [readExtents, if_pos (by omega)] at next
          cases next
        | succ slots =>
          obtain ⟨small', room', same⟩ := (readExtents_first some (by omega) (by omega)).mp next
          refine ⟨_, .next full small (by omega) (by omega) small' room room', ?_⟩
          rw [same]
          exact filled_over fun x outside => if_neg outside
    · rintro ⟨a, source, same⟩
      cases source with
      | within before => omega
      | next _ small inside' some' small' room room' =>
        obtain ⟨slots, rfl⟩ : ∃ m, slots = m + 1 := ⟨slots - 1, by omega⟩
        refine ⟨small, room, bounds, (readExtents_first some inside' (by omega)).mpr ⟨small', room', ?_⟩⟩
        rw [same]
        exact (filled_over fun x outside => if_neg outside).symm
  · rw [readExtents_turn (by omega) inside (by omega)]
    constructor
    · rintro ⟨-, -, -, next⟩
      exact absurd next (readExtents_bad ordered (by omega) (by omega) (.inl (by omega)))
    · rintro ⟨a, source, -⟩
      cases source with
      | within before => omega
      | next full => omega

end Loop

end ExtentFs
