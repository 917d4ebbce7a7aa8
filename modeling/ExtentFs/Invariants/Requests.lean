import ExtentFs.Invariants.Steady
import ExtentFs.Model.Requests

namespace ExtentFs

open Base

section Cases

variable {fs fs' : FsCtx} {env : Env} {fuel : Nat} {path : CString} {r : Int}

theorem a1fsUtimens_ok {times : Timespec × Timespec}
    (h : a1fsUtimens env fs path times = .ok (fs', r)) :
    fs' = fs ∨ ∃ i, fs' = fs.setInode i { fs.itable i with iMtime := times.2 } := by
  rw [a1fsUtimens, bind_eq_ok] at h
  obtain ⟨i, -, h⟩ := h
  split at h
  · cases h
    exact .inl rfl
  · rw [bind_eq_ok] at h
    obtain ⟨inode, read, h⟩ := h
    obtain ⟨-, rfl⟩ := inodeAt_ok.mp read
    cases h
    exact .inr ⟨i.toNat, rfl⟩

/-- What a request does: nothing, it sets a time, or it makes its call. -/
theorem serve_cases {request : Request} {reply : Reply}
    (h : request.serve env fuel fs = .ok (fs', reply)) : fs' = fs ∨
      (∃ path times i, request = .utimens path times ∧
        fs' = fs.setInode i { fs.itable i with iMtime := times.2 }) ∨
      ∃ call r, request = .change call ∧ reply = .status r ∧ call.exec env fuel fs = .ok (fs', r) := by
  cases request with
  | statfs path =>
    cases h
    exact .inl rfl
  | getattr path | readdir path | read path size offset =>
    obtain ⟨answer, -, h⟩ := bind_eq_ok.mp h
    cases h
    exact .inl rfl
  | utimens path times =>
    obtain ⟨⟨fs1, r⟩, set, h⟩ := bind_eq_ok.mp h
    cases h
    rcases a1fsUtimens_ok set with same | ⟨i, result⟩
    · exact .inl same
    · exact .inr (.inl ⟨path, times, i, rfl, result⟩)
  | change call =>
    obtain ⟨⟨fs1, r⟩, returned, h⟩ := bind_eq_ok.mp h
    cases h
    exact .inr (.inr ⟨call, r, rfl, rfl, returned⟩)

end Cases

section Runs

variable {fs : FsCtx} {guard : FsCtx → Exchange → Prop} {P : FsCtx → Prop}

/-- The run rule of the driver: what holds after `mkfs` and is kept by the effects of calls and by
    the setting of a time. -/
theorem invariant_of_driver (run : driver.Reaches guard fs)
    (base : ∀ {blocks nInodes d now}, Geometry blocks nInodes d → P (formatted blocks nInodes d now))
    (calls : ∀ {fs env call fs'}, Steady fs → P fs → Effect fs env call fs' → P fs')
    (times : ∀ {fs i t}, P fs → P (fs.setInode i { fs.itable i with iMtime := t })) : P fs := by
  have both : Steady fs ∧ P fs := by
    refine run.invariant (fun fs => Steady fs ∧ P fs) (fun s start => ?_) ?_
    · obtain ⟨blocks, nInodes, d, now, g, rfl⟩ := Initial.shape start
      exact ⟨g.steady, base g⟩
    · rintro s x s' ⟨steady, holds⟩ - ⟨fuel, served⟩
      rcases serve_cases served with same | ⟨path, set, i, -, result⟩ | ⟨call, r, -, -, returned⟩
      · exact same ▸ ⟨steady, holds⟩
      · have sane := steady.sane i
        exact result ▸ ⟨steady.setInode ⟨sane.low, sane.high, sane.direct⟩, times holds⟩
      · have effect := Call.exec_effect steady.shaped.range returned
        exact ⟨steady.effect effect, calls steady holds effect⟩
  exact both.2

theorem steady_of_driver (run : driver.Reaches guard fs) : Steady fs :=
  invariant_of_driver run Geometry.steady (fun steady _ effect => steady.effect effect)
    fun steady =>
      have sane := steady.sane _
      steady.setInode ⟨sane.low, sane.high, sane.direct⟩

end Runs

theorem zeroInode_extent (k : Nat) : zeroInode.iExtent k = ⟨0, 0, 0⟩ := by
  have word (a : Nat) : Bytes.word32 (fun _ => 0#8) a = 0#32 := by
    simp only [Bytes.word32]
    decide
  have zeros (a : Nat) : A1fsExtent.read (fun _ => 0#8) a = ⟨0, 0, 0⟩ := by
    simp only [A1fsExtent.read, word]
    rfl
  change (if k < 12 then A1fsExtent.read (fun _ => 0#8) (0 + 32 + 12 * k) else ⟨0, 0, 0⟩) = _
  rw [zeros, ite_self]

/-- The extents of every slot, used or not, have numbers that fit their fields. -/
structure Numbered (fs : FsCtx) : Prop where
  covered : fs.blockBits.length < 2 ^ 28
  start : ∀ i k, ((fs.itable i).iExtent k).start < 2 ^ 31
  count : ∀ i k, ((fs.itable i).iExtent k).count ≤ 8 * fs.blockBits.length

namespace Numbered

variable {fs fs' : FsCtx} {i : Nat}

theorem same (numbered : Numbered fs) (bits : fs'.blockBits.length = fs.blockBits.length)
    (extents : ∀ i, (fs'.itable i).iExtent = (fs.itable i).iExtent) : Numbered fs' := by
  refine ⟨by rw [bits]; exact numbered.covered, fun i k => ?_, fun i k => ?_⟩
  · rw [extents]
    exact numbered.start i k
  · rw [extents, bits]
    exact numbered.count i k

theorem touch (numbered : Numbered fs) (touches : fs.Touches fs' i) : Numbered fs' := by
  have bits := touches.blockBits
  refine ⟨by rw [bits]; exact numbered.covered, fun j k => ?_, fun j k => ?_⟩
  · rw [(touches.sameExtents j).start]
    exact numbered.start j k
  · rw [(touches.sameExtents j).count, bits]
    exact numbered.count j k

theorem setInode {inode : A1fsInode} (numbered : Numbered fs)
    (start : ∀ k, (inode.iExtent k).start < 2 ^ 31)
    (count : ∀ k, (inode.iExtent k).count ≤ 8 * fs.blockBits.length) : Numbered (fs.setInode i inode) := by
  refine ⟨numbered.covered, fun j k => ?_, fun j k => ?_⟩
  · by_cases own : j = i
    · rw [own, FsCtx.setInode_self]
      exact start k
    · rw [FsCtx.setInode_other own]
      exact numbered.start j k
  · by_cases own : j = i
    · rw [own, FsCtx.setInode_self]
      exact count k
    · rw [FsCtx.setInode_other own]
      exact numbered.count j k

theorem keeping {inode : A1fsInode} (numbered : Numbered fs)
    (extents : inode.iExtent = (fs.itable i).iExtent) : Numbered (fs.setInode i inode) :=
  numbered.setInode (fun k => by rw [extents]; exact numbered.start i k)
    fun k => by rw [extents]; exact numbered.count i k

theorem flipBlocks (numbered : Numbered fs) {l : List Nat} {flipType : Nat} :
    Numbered (fs.flipBlocks l flipType) := numbered.same Bitmap.flipAll_length fun _ => rfl

/-- The blocks of a new extent have bits, and so have those that an extent is continued by. -/
theorem grown (numbered : Numbered fs) (shaped : fs.Shaped) {n start : Nat} {now : Timespec}
    {inode : A1fsInode} (growth : Growth fs i n now start inode)
    (bits : ∀ b ∈ List.range' start n, b / 8 < fs.blockBits.length) : Numbered (fs.setInode i inode) := by
  have fits (some : n ≠ 0) : start + n ≤ 8 * fs.blockBits.length := by
    have last := bits (start + n - 1) (by rw [List.mem_range'_1]; omega)
    omega
  have other {k slot : Nat} {extent : A1fsExtent} (differ : k ≠ slot) :
      ((fs.itable i).setExtent slot extent).iExtent k = (fs.itable i).iExtent k := A1fsInode.setExtent_other differ
  cases growth with
  | append found =>
    have low := getAvailableBit_low shaped.range found
    have bounds := toInt_bounds (fs.sb.size / 4096 : Nat)
    rw [A1fsSuperblock.maxIndex] at low
    refine numbered.setInode (fun k => ?_) fun k => ?_
    all_goals
      rw [A1fsInode.appendExtent]
      by_cases own : k = ((fs.itable i).lastUsedExtent + 1).toNat
    · rw [own, A1fsInode.setExtent_self]
      dsimp only
      omega
    · rw [other own]
      exact numbered.start i k
    · rw [own, A1fsInode.setExtent_self]
      dsimp only
      by_cases some : n = 0
      · omega
      · have := fits some
        omega
    · rw [other own]
      exact numbered.count i k
  | attach =>
    have start := numbered.start i
    have count := numbered.count i
    refine numbered.setInode (fun k => ?_) fun k => ?_
    all_goals
      rw [A1fsInode.extendLast]
      by_cases own : k = (fs.itable i).lastUsedExtent.toNat
    · rw [own, A1fsInode.setExtent_self]
      exact start _
    · rw [other own]
      exact start k
    · rw [own, A1fsInode.setExtent_self]
      rw [A1fsInode.blockAfter] at fits
      have old := count (fs.itable i).lastUsedExtent.toNat
      by_cases some : n = 0
      · dsimp only
        omega
      · have := fits some
        dsimp only
        omega
    · rw [other own]
      exact count k

/-- The block behind an extent was read as a bit before the extent was continued there. -/
theorem attaches_inside (taken : fs.attaches i 1 = true) :
    (fs.itable i).blockAfter / 8 < fs.blockBits.length := by
  rw [FsCtx.attaches] at taken
  split at taken
  · rename_i index after answer
    rw [taken, attachable] at answer
    split at answer
    · cases answer
    · obtain ⟨last, read, answer⟩ := bind_eq_ok.mp answer
      obtain ⟨-, same⟩ := guard_eq_ok.mp read
      cases same
      obtain ⟨used, search, -⟩ := bind_eq_ok.mp answer
      obtain ⟨bit, test, -⟩ := bind_eq_ok.mp search
      exact (checkBitUsage_ok.mp test).1
  · cases taken

theorem addsBlock (numbered : Numbered fs) (shaped : fs.Shaped) {now : Timespec}
    (added : fs.AddsBlock i now fs') : Numbered fs' := by
  obtain ⟨block, inode, growth, inside, rfl⟩ := added
  have bit : block / 8 < fs.blockBits.length := by
    have whole := shaped.whole
    have covered := shaped.covered
    cases growth with
    | append =>
      rw [FsCtx.EntriesInside, A1fsInode.appendExtent] at inside
      dsimp only at inside
      rw [A1fsInode.setExtent_self] at inside
      dsimp only at inside
      omega
    | attach _ taken => exact attaches_inside taken
  have placed : Numbered (fs.setInode i inode) := numbered.grown shaped growth fun b member => by
    have only : b = block := by
      rw [List.mem_range'_1] at member
      omega
    exact only ▸ bit
  have stored : Numbered (fs.grown i inode .directory) := placed.same rfl fun _ => rfl
  exact stored.flipBlocks

theorem mayAdd (numbered : Numbered fs) (shaped : fs.Shaped) {now : Timespec} {needed : Prop}
    (added : fs.MayAdd i now needed fs') : Numbered fs' := by
  rcases added with ⟨-, rfl⟩ | ⟨-, added⟩
  · exact numbered
  · exact numbered.addsBlock shaped added

theorem resized (numbered : Numbered fs) (shaped : fs.Shaped) {size : Int} {now : Timespec}
    (effect : Resized fs i size now fs') : Numbered fs' := by
  cases effect with
  | touched touches => exact numbered.touch touches
  | grown blocks growth bits inside touches =>
    exact (numbered.grown shaped growth bits).flipBlocks.touch touches
  | shrunk shrinks bits touches =>
    have cut : Numbered (fs.setInode i (shrunkInode (fs.itable i) size)) := numbered.keeping (by
      rw [shrunkInode]
      split <;> rfl)
    exact cut.flipBlocks.touch touches

theorem takeInode (numbered : Numbered fs) {mode : BitVec 32} {now : Timespec} :
    Numbered (fs.takeInode i mode now) := by
  have created : Numbered (fs.setInode i (createInode (fs.itable i) mode now)) := numbered.keeping rfl
  exact created.same rfl fun _ => rfl

theorem removed (numbered : Numbered fs) {path : CString} {ino : Nat} {now : Timespec}
    (effect : Removed fs path ino now fs') : Numbered fs' := by
  have reset : Numbered (fs.setInode ino (resetInode (fs.itable ino) now)) := numbered.keeping rfl
  have dropped : Numbered (fs.dropInode ino now) := reset.same rfl fun _ => rfl
  cases effect with
  | unmarked clear result => exact result ▸ reset
  | dropped marked result => exact result ▸ dropped
  | cleared marked walk inside search result =>
    have credited : Numbered (fs.dropInode ino now).creditBlock := dropped.same rfl fun _ => rfl
    exact result ▸ credited.touch clearDentry_touches

theorem effect (numbered : Numbered fs) (steady : Steady fs) {env : Env} {call : Call}
    (effect : Effect fs env call fs') : Numbered fs' := by
  cases effect with
  | unchanged same => exact same ▸ numbered
  | taken new free result => exact result ▸ numbered.takeInode
  | @entered ino _ _ mode _ new free walk inside added search write =>
    have taken : Steady (fs.takeInode ino mode env.now) := steady.takeInode
    exact (numbered.takeInode.mayAdd taken.shaped added).touch (writeDentry_touches write)
  | resized walk inside asked effect => exact numbered.resized steady.shaped effect
  | written walk inside touches => exact numbered.touch touches
  | stopped unlinks walk inside stops result => exact result ▸ numbered.flipBlocks
  | removed removes walk inside passes bits effect => exact numbered.flipBlocks.removed effect

theorem of_formatted {blocks nInodes d : Nat} {now : Timespec} (g : Geometry blocks nInodes d) :
    Numbered (formatted blocks nInodes d now) := by
  have few := g.fitsByte
  have extents (i k : Nat) : ((formatted blocks nInodes d now).itable i).iExtent k = ⟨0, 0, 0⟩ := by
    rcases formatted_inode blocks nInodes d now i with root | zero
    · rw [root]
      rfl
    · rw [zero, zeroInode_extent]
  refine ⟨?_, fun i k => ?_, fun i k => ?_⟩
  · simp only [formatted]
    omega
  · rw [extents]
    decide
  · rw [extents]
    exact Nat.zero_le _

end Numbered

theorem numbered_of_driver {fs : FsCtx} {guard : FsCtx → Exchange → Prop} (run : driver.Reaches guard fs) :
    Numbered fs :=
  invariant_of_driver run Numbered.of_formatted (fun steady numbered effect => numbered.effect steady effect)
    fun numbered => numbered.keeping rfl

end ExtentFs
