import ExtentFs.Effects.Listing
import ExtentFs.Effects.Remove

namespace ExtentFs

open Base Base.Bytes

/-- The slots of a directory: those in use carry distinct names, the free ones an empty name. -/
structure FsCtx.Slots (fs : FsCtx) (d : Nat) : Prop where
  number : ∀ a ∈ (fs.itable d).entries, fs.inUse a = true → 0 ≤ fs.dentryIno a
  named : ∀ a ∈ (fs.itable d).entries, fs.inUse a = true → ∃ name, fs.Named a name
  distinct : ∀ a ∈ (fs.itable d).entries, ∀ a' ∈ (fs.itable d).entries, fs.inUse a = true →
    fs.inUse a' = true → ∀ name, fs.Named a name → fs.Named a' name → a = a'
  blank : fs.Blank d

section Scan

variable {fs fs' : FsCtx} {dir dir' : A1fsInode} {β γ : Type} {body : Nat → Checked (Option β)}
  {body' : Nat → Checked (Option γ)} {g : β → γ} {r : Option β}

theorem scanDentries_transfer (extents : dir.SameExtents dir') (size : fs'.dataSize = fs.dataSize)
    (transfers : ∀ a ∈ dir.entries, ∀ s, body a = .ok s → body' a = .ok (s.map g))
    (h : fs.scanDentries dir body = .ok r) : fs'.scanDentries dir' body' = .ok (r.map g) := by
  rw [FsCtx.scanDentries] at h ⊢
  rw [extents.usedSlots]
  apply findSomeM?_transfer (fun i slot s scan => ?_) h
  rw [bind_eq_ok] at scan ⊢
  obtain ⟨extent, read, scan⟩ := scan
  obtain ⟨within, same⟩ := guard_eq_ok.mp read
  cases same
  refine ⟨dir'.iExtent i, if_pos within, ?_⟩
  rw [extents.start, extents.count]
  apply findSomeM?_transfer (fun j block s scan => ?_) scan
  apply findSomeM?_transfer (fun k entry s test => ?_) scan
  rw [bind_eq_ok] at test ⊢
  obtain ⟨addr, place, test⟩ := test
  obtain ⟨fits, inside, rfl⟩ := dentryAddr_ok.mp place
  refine ⟨4096 * j + k, dentryAddr_ok.mpr ⟨fits, by omega, rfl⟩, ?_⟩
  apply transfers _ _ s test
  have member : j ∈ dir.blocks := A1fsInode.mem_blocks.mpr ⟨i, slot, block⟩
  exact A1fsInode.mem_entries.mpr ⟨j, member, List.mem_map.mpr ⟨k, entry, rfl⟩⟩

end Scan

namespace FsCtx.Slots

variable {fs fs' : FsCtx} {a d : Nat} {token : List Byte} {r : Int}

theorem listed (slots : fs.Slots d) : fs.Listed d := by
  apply FsCtx.Listed.of_named slots.number slots.named slots.distinct
  apply List.pairwise_of_forall_mem_list
  intro a member a' _ _
  cases used : fs.inUse a with
  | true => exact .inl rfl
  | false => exact .inr (slots.blank a member used)

theorem of_listed (listed : fs.Listed d) (blank : fs.Blank d) : fs.Slots d :=
  ⟨listed.number, listed.named, fun a member a' member' used used' name named named' =>
    listed.distinct a member a' member' used used' name named.1 named.2.2.2 named'.2.2.2, blank⟩

theorem terminated (slots : fs.Slots d) (member : a ∈ (fs.itable d).entries) :
    ∃ k < 252, fs.data (a + 4 + k) = 0#8 := by
  cases used : fs.inUse a with
  | true =>
    obtain ⟨name, -, -, short, read⟩ := slots.named a member used
    exact ⟨name.length, short, nameIs_end read⟩
  | false => exact ⟨0, by omega, slots.blank a member used⟩

theorem strcmp (slots : fs.Slots d) (member : a ∈ (fs.itable d).entries)
    (inside : a + 256 ≤ fs.dataSize) (noNul : 0#8 ∉ token) :
    fs.strcmp (a + 4) token = .ok (nameIs fs.data (a + 4) token) := by
  obtain ⟨k, short, zero⟩ := slots.terminated member
  exact strcmp_terminated noNul (by omega) zero

theorem nameIs_iff (slots : fs.Slots d) (member : a ∈ (fs.itable d).entries) (noNul : 0#8 ∉ token)
    (some : token ≠ []) :
    nameIs fs.data (a + 4) token = true ↔ fs.inUse a = true ∧ fs.Named a token := by
  constructor
  · intro read
    cases used : fs.inUse a with
    | true => exact ⟨rfl, slots.listed.named_of_nameIs member used noNul read⟩
    | false => exact absurd (slots.blank a member used) (nameIs_head noNul some read)
  · exact fun named => named.2.2.2.2

end FsCtx.Slots

/-- A lookup does not see changes in slots that carry another name before and after. -/
theorem inodeLookup_keeps {fs fs' : FsCtx} {d : Nat} {token : List Byte} {r : Int}
    (slots : fs.Slots d) (slots' : fs'.Slots d)
    (extents : (fs.itable d).SameExtents (fs'.itable d)) (size : fs'.dataSize = fs.dataSize)
    (count : fs'.sb.sbInodesCount = fs.sb.sbInodesCount)
    (inside : ∀ a ∈ (fs.itable d).entries, a + 256 ≤ fs.dataSize) (noNul : 0#8 ∉ token)
    (some : token ≠ [])
    (same : ∀ a ∈ (fs.itable d).entries, fs.SameEntry fs' a ∨
      ¬ (fs.inUse a = true ∧ fs.Named a token) ∧ ¬ (fs'.inUse a = true ∧ fs'.Named a token))
    (h : inodeLookup fs d token = .ok r) : inodeLookup fs' d token = .ok r := by
  have entries : (fs'.itable d).entries = (fs.itable d).entries := by
    rw [A1fsInode.entries, extents.blocks, A1fsInode.entries]
  obtain ⟨range, found, scan, number⟩ := inodeLookup_scan.mp h
  refine inodeLookup_scan.mpr ⟨by omega, found.map id,
    scanDentries_transfer extents size (fun a member s test => ?_) scan, ?_⟩
  · have member' : a ∈ (fs'.itable d).entries := by rwa [entries]
    have place := inside a member
    have before := slots.nameIs_iff member noNul some
    have after := slots'.nameIs_iff member' noNul some
    rw [slots.strcmp member place noNul, ok_bind] at test
    rw [slots'.strcmp member' (by omega) noNul, ok_bind, Option.map_id_apply, ← test]
    rcases same a member with bytes | ⟨other, other'⟩
    · have read' : nameIs fs'.data (a + 4) token = nameIs fs.data (a + 4) token := by
        rw [Bool.eq_iff_iff, before, after, bytes.inUse, bytes.named]
      rw [read', bytes.dentryIno]
    · rw [if_neg fun read => other (before.mp read), if_neg fun read => other' (after.mp read)]
  · rw [Option.map_id_apply]
    exact number

theorem entries_inside {fs : FsCtx} {d : Nat} (inside : ∀ b ∈ (fs.itable d).blocks, b < fs.dataBlocks) :
    ∀ a ∈ (fs.itable d).entries, a + 256 ≤ fs.dataSize := by
  intro a member
  obtain ⟨b, block, slot⟩ := A1fsInode.mem_entries.mp member
  have place := blockEntries_place slot
  have within := inside b block
  rw [FsCtx.dataBlocks] at within
  omega

section Change

variable {fs fs' : FsCtx} {d addr ino : Nat} {dirs : Int} {name : List Byte} {now : Timespec}

theorem find?_first {q : Nat → Bool} {before after : List Nat}
    (nodup : (before ++ addr :: after).Nodup)
    (found : (before ++ addr :: after).find? q = some addr) : ∀ a ∈ before, q a = false := by
  induction before with
  | nil => simp
  | cons b before ih =>
    rw [List.cons_append, List.nodup_cons] at nodup
    rw [List.cons_append, List.find?_cons] at found
    cases test : q b with
    | true =>
      rw [test] at found
      cases found
      exact absurd (by simp) nodup.1
    | false =>
      rw [test] at found
      intro a member
      rcases List.mem_cons.mp member with rfl | member
      · exact test
      · exact ih nodup.2 found a member

theorem writeDentry_outside {x : Nat} (short : name.length < a1fsNameMax)
    (write : writeDentry fs d ino name addr now = .ok fs') (other : x < addr ∨ addr + 256 ≤ x) :
    fs'.data x = fs.data x := by
  obtain ⟨-, rfl⟩ := writeDentry_ok write
  rw [a1fsNameMax] at short
  have length : (name ++ [0#8]).length = name.length + 1 := by simp
  dsimp only
  rw [set32_outside _ (by omega), store_outside (by omega)]

theorem clearDentry_outside {x : Nat} (other : x < addr ∨ addr + 256 ≤ x) :
    (clearDentry fs d addr dirs now).data x = fs.data x := by
  change ((fs.data.set32 addr (-1#32)).set8 (addr + 4) 0#8) x = fs.data x
  rw [set8_of_ne _ (by omega), set32_outside _ (by omega)]

theorem changesEntry_of_outside (blocks : (fs'.itable d).blocks = (fs.itable d).blocks)
    (nodup : (fs.itable d).entries.Nodup) (member : addr ∈ (fs.itable d).entries)
    (outside : ∀ x, x < addr ∨ addr + 256 ≤ x → fs'.data x = fs.data x) :
    fs.ChangesEntry fs' d addr := by
  refine ⟨by rw [A1fsInode.entries, blocks, A1fsInode.entries], nodup, member, ?_⟩
  intro a other differ k bound
  have apart := entries_apart other member differ
  exact outside (a + k) (by omega)

theorem writeDentry_enters (nodup : (fs.itable d).entries.Nodup)
    (search : fs.findIno (fs.itable d) (-1) = .ok (some addr))
    (write : writeDentry fs d ino name addr now = .ok fs')
    (proper : 0#8 ∉ name ∧ name ≠ [] ∧ name.length < a1fsNameMax) (small : ino < 2 ^ 31)
    (fresh : ∀ a ∈ (fs.itable d).entries, fs.inUse a = true → ¬ fs.Named a name) :
    fs.Enters fs' d addr ino name := by
  obtain ⟨noNul, some, short⟩ := proper
  have found := (findIno_ok search).symm
  have member := List.mem_of_find?_eq_some found
  have free : fs.dentryIno addr = -1 := by simpa using List.find?_some found
  have changes : fs.ChangesEntry fs' d addr :=
    changesEntry_of_outside (writeDentry_touches write).inode.blocks nodup member
      fun x other => writeDentry_outside short write other
  obtain ⟨-, result⟩ := writeDentry_ok write
  have data : fs'.data =
      (fs.data.store (addr + 4) (name ++ [0#8])).set32 addr (BitVec.ofNat 32 ino) := by rw [result]
  clear result write
  rw [a1fsNameMax] at short
  refine ⟨changes, ?_, fun before after split a early => ?_, ?_, ⟨noNul, some, short, ?_⟩, fresh⟩
  · rw [← Bool.not_eq_true, inUse_iff, not_not]
    exact free
  · rw [split] at found
    have negative := find?_first (split ▸ nodup) found a early
    rw [inUse_iff]
    simpa using negative
  · rw [FsCtx.dentryIno, data, word32_set32, BitVec.toInt_ofNat', Int.bmod_def]
    split <;> omega
  · have read : nameIs fs'.data (addr + 4) name =
        nameIs (fs.data.store (addr + 4) (name ++ [0#8])) (addr + 4) name := by
      apply nameIs_congr
      intro k bound
      rw [data]
      exact set32_outside _ (by omega)
    exact read.trans nameIs_store

theorem clearDentry_clears {before : FsCtx} (table : before.itable d = fs.itable d)
    (data : before.data = fs.data) (nodup : (fs.itable d).entries.Nodup)
    (member : addr ∈ (fs.itable d).entries) (number : fs.dentryIno addr = ino)
    (named : fs.Named addr name) :
    fs.Clears (clearDentry before d addr dirs now) d addr ino name := by
  have touches : before.creditBlock.Touches (clearDentry before d addr dirs now) d :=
    clearDentry_touches
  have blocks : ((clearDentry before d addr dirs now).itable d).blocks = (fs.itable d).blocks := by
    rw [touches.inode.blocks, ← table]
    rfl
  refine ⟨changesEntry_of_outside blocks nodup member fun x other => ?_, number, named, ?_,
    set8_self _⟩
  · rw [clearDentry_outside other, data]
  · rw [← Bool.not_eq_true, inUse_iff, not_not]
    change (((before.data.set32 addr (-1#32)).set8 (addr + 4) 0#8).word32 addr).toInt = -1
    rw [word32_set8 _ (by omega), word32_set32]
    decide

end Change

section Preserve

variable {fs fs' : FsCtx} {d addr j : Nat} {name : List Byte}

namespace FsCtx.Blank

theorem same (blank : fs.Blank d) (same : fs.SameDirectory fs' d) : fs'.Blank d := by
  intro a member unused
  rw [same.entries] at member
  rw [(same.bytes a member).inUse] at unused
  rw [same.bytes a member 4 (by omega)]
  exact blank a member unused

theorem enters (blank : fs.Blank d) (enters : fs.Enters fs' d addr j name) : fs'.Blank d := by
  rw [FsCtx.Blank, enters.entries]
  intro a member unused
  have differ : a ≠ addr := by
    rintro rfl
    rw [enters.used] at unused
    cases unused
  have bytes := enters.bytes a member differ
  rw [bytes.inUse] at unused
  rw [bytes 4 (by omega)]
  exact blank a member unused

theorem clears (blank : fs.Blank d) (clears : fs.Clears fs' d addr j name) : fs'.Blank d := by
  rw [FsCtx.Blank, clears.entries]
  intro a member unused
  by_cases same : a = addr
  · rw [same, clears.blank]
  · have bytes := clears.bytes a member same
    rw [bytes.inUse] at unused
    rw [bytes 4 (by omega)]
    exact blank a member unused

end FsCtx.Blank

namespace FsCtx.Slots

theorem same (slots : fs.Slots d) (same : fs.SameDirectory fs' d) : fs'.Slots d :=
  of_listed (same.listed slots.listed) (slots.blank.same same)

theorem enters (slots : fs.Slots d) (enters : fs.Enters fs' d addr j name) : fs'.Slots d :=
  of_listed (enters.listed slots.listed) (slots.blank.enters enters)

theorem clears (slots : fs.Slots d) (clears : fs.Clears fs' d addr j name) : fs'.Slots d :=
  of_listed (clears.listed slots.listed) (slots.blank.clears clears)

end FsCtx.Slots

end Preserve

end ExtentFs
