import Mathlib.Data.List.Basic
import Mathlib.Data.List.Nodup
import ExtentFs.Base.Frames

namespace Base

section Lists

variable {α : Type*} {pad : α} {c buf : List α} {n offset x : Nat}

def resize (pad : α) (c : List α) (n : Nat) : List α := c.take n ++ List.replicate (n - c.length) pad

/-- A list laid over another from an offset on; a hole before it is padded. -/
def overwrite (pad : α) (c : List α) (offset : Nat) (buf : List α) : List α :=
  resize pad c offset ++ buf ++ c.drop (offset + buf.length)

@[simp] theorem length_resize : (resize pad c n).length = n := by
  rw [resize, List.length_append, List.length_take, List.length_replicate]
  omega

@[simp] theorem length_overwrite :
    (overwrite pad c offset buf).length = max c.length (offset + buf.length) := by
  rw [overwrite, List.length_append, List.length_append, length_resize, List.length_drop]
  omega

theorem getD_resize : (resize pad c n).getD x pad = if x < n then c.getD x pad else pad := by
  unfold resize
  by_cases old : x < min n c.length
  · rw [List.getD_append _ _ _ _ (by rwa [List.length_take]), if_pos (by omega),
      List.getD_eq_getElem?_getD, List.getElem?_take_of_lt (by omega), List.getD_eq_getElem?_getD]
  · rw [List.getD_append_right _ _ _ _ (by rw [List.length_take]; omega),
      List.getD_eq_getElem?_getD, List.getElem?_getD_replicate_default_eq]
    split
    · rw [List.getD_eq_default _ _ (by omega)]
    · rfl

theorem getD_overwrite : (overwrite pad c offset buf).getD x pad =
    if offset ≤ x ∧ x < offset + buf.length then buf.getD (x - offset) pad else c.getD x pad := by
  unfold overwrite
  have front : (resize pad c offset ++ buf).length = offset + buf.length := by
    rw [List.length_append, length_resize]
  by_cases before : x < offset
  · rw [List.append_assoc, List.getD_append _ _ _ _ (by rwa [length_resize]), getD_resize, if_pos before,
      if_neg (by omega)]
  · by_cases inside : x < offset + buf.length
    · rw [List.getD_append _ _ _ _ (by rwa [front]), List.getD_append_right _ _ _ _ (by rw [length_resize]; omega),
        length_resize, if_pos (by omega)]
    · rw [List.getD_append_right _ _ _ _ (by rw [front]; omega), front, if_neg (by omega),
        List.getD_eq_getElem?_getD, List.getElem?_drop, ← List.getD_eq_getElem?_getD]
      congr 1
      omega

theorem ext_getD {c d : List α} (length : c.length = d.length)
    (same : ∀ x < c.length, c.getD x pad = d.getD x pad) : c = d := by
  apply List.ext_getElem length
  intro x left right
  have entry := same x left
  rwa [List.getD_eq_getElem _ _ left, List.getD_eq_getElem _ _ right] at entry

theorem resize_length : resize pad c c.length = c := by
  simp [resize]

theorem overwrite_nil : overwrite pad c offset [] = resize pad c (max c.length offset) := by
  apply ext_getD
  · rw [length_overwrite, length_resize, List.length_nil, Nat.add_zero]
  · intro x inside
    rw [length_overwrite, List.length_nil, Nat.add_zero] at inside
    rw [getD_overwrite, getD_resize, List.length_nil, if_neg (by omega), if_pos inside]

/-- To make room for a list before laying it over makes no difference. -/
theorem overwrite_resize : overwrite pad (resize pad c (max c.length (offset + buf.length))) offset buf =
    overwrite pad c offset buf := by
  apply ext_getD
  · rw [length_overwrite, length_overwrite, length_resize, Nat.max_assoc, Nat.max_self]
  · intro x inside
    rw [length_overwrite, length_resize] at inside
    rw [getD_overwrite, getD_overwrite, getD_resize]
    split
    · rfl
    · rw [if_pos (by omega)]

end Lists

namespace Bytes

variable {blockSize : Nat} {m m' : Bytes} {blocks more : List Nat} {c buf : List Byte}
  {n offset x : Nat}

/-- Byte `x` of a file that lies in a list of blocks. -/
def spread (blockSize : Nat) (m : Bytes) (blocks : List Nat) (x : Nat) : Byte :=
  m (blockSize * blocks.getD (x / blockSize) 0 + x % blockSize)

def gather (blockSize : Nat) (m : Bytes) (blocks : List Nat) : List Byte :=
  blocks.flatMap fun b => (List.range' (blockSize * b) blockSize).map m

theorem length_gather : (gather blockSize m blocks).length = blockSize * blocks.length := by
  induction blocks with
  | nil => rfl
  | cons b blocks ih =>
    rw [gather, List.flatMap_cons, List.length_append, List.length_map, List.length_range']
    rw [gather] at ih
    rw [ih, List.length_cons, Nat.mul_succ, Nat.add_comm]

theorem getD_gather (inside : x < blockSize * blocks.length) :
    (gather blockSize m blocks).getD x 0 = spread blockSize m blocks x := by
  have some : 0 < blockSize := by
    apply Nat.pos_of_ne_zero
    rintro rfl
    simp at inside
  induction blocks generalizing x with
  | nil => simp at inside
  | cons b blocks ih =>
    rw [List.length_cons, Nat.mul_succ] at inside
    have first : ((List.range' (blockSize * b) blockSize).map m).length = blockSize := by simp
    rw [gather, List.flatMap_cons]
    by_cases before : x < blockSize
    · rw [List.getD_append _ _ _ _ (by rwa [first]), List.getD_eq_getElem _ _ (by rwa [first])]
      simp [spread, Nat.div_eq_of_lt before, Nat.mod_eq_of_lt before]
    · obtain ⟨y, rfl⟩ : ∃ y, x = blockSize + y := ⟨x - blockSize, by omega⟩
      have rest := ih (x := y) (by omega)
      rw [gather] at rest
      rw [List.getD_append_right _ _ _ _ (by omega), first, Nat.add_sub_cancel_left, rest, spread, spread,
        Nat.add_div_left _ some, Nat.add_mod_left, List.getD_cons_succ]

theorem block_inside (inside : x < blockSize * blocks.length) : x / blockSize < blocks.length :=
  Nat.div_lt_of_lt_mul inside

theorem spread_congr (same : ∀ a, a / blockSize ∈ blocks → m' a = m a)
    (inside : x < blockSize * blocks.length) : spread blockSize m' blocks x = spread blockSize m blocks x := by
  have some : 0 < blockSize := by
    apply Nat.pos_of_ne_zero
    rintro rfl
    simp at inside
  have short := block_inside inside
  apply same
  rw [Nat.mul_add_div some, Nat.div_eq_of_lt (Nat.mod_lt _ some), Nat.add_zero,
    List.getD_eq_getElem _ _ short]
  exact List.getElem_mem short

theorem spread_append (inside : x < blockSize * blocks.length) :
    spread blockSize m (blocks ++ more) x = spread blockSize m blocks x := by
  rw [spread, List.getD_append _ _ _ _ (block_inside inside), spread]

theorem spread_append_right (some : 0 < blockSize) :
    spread blockSize m (blocks ++ more) (blockSize * blocks.length + x) = spread blockSize m more x := by
  rw [spread, Nat.mul_add_div some, Nat.mul_add_mod, List.getD_append_right _ _ _ _ (Nat.le_add_right _ _),
    Nat.add_sub_cancel_left, spread]

theorem spread_run {start count : Nat} (inside : x < blockSize * count) :
    spread blockSize m (List.range' start count) x = m (blockSize * start + x) := by
  have short : x / blockSize < (List.range' start count).length := by
    rw [List.length_range']
    exact Nat.div_lt_of_lt_mul inside
  rw [spread, List.getD_eq_getElem _ _ short, List.getElem_range', Nat.one_mul, Nat.mul_add, Nat.add_assoc,
    Nat.div_add_mod]

theorem blocks_apart (blockSize : Nat) {b b' : Nat} (differ : b ≠ b') :
    blockSize * b + blockSize ≤ blockSize * b' ∨ blockSize * b' + blockSize ≤ blockSize * b := by
  rw [← Nat.mul_succ, ← Nat.mul_succ]
  rcases Nat.lt_or_gt_of_ne differ with less | greater
  · exact .inl (Nat.mul_le_mul_left _ less)
  · exact .inr (Nat.mul_le_mul_left _ greater)

theorem spread_store (nodup : blocks.Nodup) (place : offset / blockSize < blocks.length)
    (aligned : offset % blockSize + buf.length ≤ blockSize) (inside : x < blockSize * blocks.length) :
    spread blockSize (m.store (blockSize * blocks.getD (offset / blockSize) 0 + offset % blockSize) buf)
        blocks x =
      if offset ≤ x ∧ x < offset + buf.length then buf.getD (x - offset) 0
      else spread blockSize m blocks x := by
  have short := block_inside inside
  have some : 0 < blockSize := by
    apply Nat.pos_of_ne_zero
    rintro rfl
    simp at inside
  have first := Nat.div_add_mod offset blockSize
  have second := Nat.div_add_mod x blockSize
  have rest := Nat.mod_lt x some
  rw [spread, spread, store]
  by_cases same : x / blockSize = offset / blockSize
  · rw [same] at second ⊢
    by_cases covered : offset ≤ x ∧ x < offset + buf.length
    · rw [if_pos (by omega), if_pos covered]
      congr 1
      omega
    · rw [if_neg (by omega), if_neg covered]
  · have differ : blocks.getD (x / blockSize) 0 ≠ blocks.getD (offset / blockSize) 0 := by
      rw [List.getD_eq_getElem _ _ short, List.getD_eq_getElem _ _ place]
      exact fun equal => same (nodup.getElem_inj_iff.mp equal)
    have addresses := blocks_apart blockSize differ
    have positions := blocks_apart blockSize same
    rw [if_neg (by omega), if_neg (by omega)]

theorem fill_eq_store {a : Nat} {value : Byte} : m.fill a n value = m.store a (List.replicate n value) := by
  funext x
  simp only [fill, store, List.length_replicate]
  split
  · rw [List.getD_replicate _ (by omega)]
  · rfl

theorem spread_fill {value : Byte} (nodup : blocks.Nodup) (place : offset / blockSize < blocks.length)
    (aligned : offset % blockSize + n ≤ blockSize) (inside : x < blockSize * blocks.length) :
    spread blockSize (m.fill (blockSize * blocks.getD (offset / blockSize) 0 + offset % blockSize) n value)
        blocks x =
      if offset ≤ x ∧ x < offset + n then value else spread blockSize m blocks x := by
  rw [fill_eq_store, spread_store nodup place (by rwa [List.length_replicate]) inside,
    List.length_replicate]
  split
  · rw [List.getD_replicate _ (by omega)]
  · rfl

/-- The first bytes of a file's blocks are those of a list. -/
structure Spells (blockSize : Nat) (m : Bytes) (blocks : List Nat) (c : List Byte) : Prop where
  fits : c.length ≤ blockSize * blocks.length
  bytes : ∀ x < c.length, spread blockSize m blocks x = c.getD x 0

namespace Spells

theorem gather (spells : Spells blockSize m blocks c) :
    (gather blockSize m blocks).take c.length = c := by
  have fits := spells.fits
  have length : ((Bytes.gather blockSize m blocks).take c.length).length = c.length := by
    rw [List.length_take, length_gather]
    omega
  apply ext_getD length
  intro x inside
  rw [length] at inside
  have byte : (Bytes.gather blockSize m blocks).getD x 0 = spread blockSize m blocks x :=
    getD_gather (by omega)
  rw [List.getD_eq_getElem?_getD, List.getElem?_take_of_lt inside, ← List.getD_eq_getElem?_getD, byte,
    spells.bytes x inside]

theorem congr (spells : Spells blockSize m blocks c) (same : ∀ a, a / blockSize ∈ blocks → m' a = m a) :
    Spells blockSize m' blocks c := by
  have fits := spells.fits
  refine ⟨fits, fun x inside => ?_⟩
  rw [spread_congr same (by omega), spells.bytes x inside]

theorem append (spells : Spells blockSize m blocks c) : Spells blockSize m (blocks ++ more) c := by
  have fits := spells.fits
  constructor
  · rw [List.length_append, Nat.mul_add]
    omega
  · intro x inside
    rw [spread_append (by omega), spells.bytes x inside]

theorem resize (spells : Spells blockSize m blocks c) (room : n ≤ blockSize * blocks.length)
    (zeros : ∀ x, c.length ≤ x → x < n → spread blockSize m blocks x = 0) :
    Spells blockSize m blocks (resize 0 c n) := by
  constructor
  · rwa [length_resize]
  · intro x inside
    rw [length_resize] at inside
    rw [getD_resize, if_pos inside]
    by_cases old : x < c.length
    · exact spells.bytes x old
    · rw [zeros x (by omega) inside, List.getD_eq_default _ _ (by omega)]

theorem overwrite (spells : Spells blockSize m blocks c) (nodup : blocks.Nodup)
    (aligned : offset % blockSize + buf.length ≤ blockSize) (some : buf ≠ [])
    (within : offset + buf.length ≤ c.length) :
    Spells blockSize
      (m.store (blockSize * blocks.getD (offset / blockSize) 0 + offset % blockSize) buf) blocks
      (overwrite 0 c offset buf) := by
  have fits := spells.fits
  have length := List.length_pos_of_ne_nil some
  constructor
  · rw [length_overwrite]
    omega
  · intro x inside
    rw [length_overwrite] at inside
    rw [spread_store nodup (block_inside (by omega)) aligned (by omega), getD_overwrite,
      spells.bytes x (by omega)]

end Spells

end Bytes

end Base
