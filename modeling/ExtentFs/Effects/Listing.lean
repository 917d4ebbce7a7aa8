import ExtentFs.Base.Frames
import ExtentFs.Effects.Walks

namespace ExtentFs

open Base Base.Bytes

theorem countP_update {α : Type} {p p' : α → Bool} {l : List α} {a : α} (nodup : l.Nodup)
    (member : a ∈ l) (others : ∀ b ∈ l, b ≠ a → p' b = p b) :
    l.countP p' + (p a).toNat = l.countP p + (p' a).toNat := by
  obtain ⟨before, after, rfl⟩ := List.append_of_mem member
  rw [List.nodup_middle, List.nodup_cons] at nodup
  have same (part : List α) (within : part ⊆ before ++ after) : part.countP p' = part.countP p := by
    apply List.countP_congr
    intro b inside
    have differ : b ≠ a := by
      rintro rfl
      exact nodup.1 (within inside)
    rw [others b (by have := within inside; grind) differ]
  rw [List.countP_append, List.countP_append, List.countP_cons, List.countP_cons,
    same before (List.subset_append_left _ _), same after (List.subset_append_right _ _)]
  cases p a <;> cases p' a <;> simp <;> omega

namespace FsCtx

def SameEntry (fs fs' : FsCtx) (a : Nat) : Prop := ∀ k < 256, fs'.data (a + k) = fs.data (a + k)

/-- An entry has a proper name. -/
def Named (fs : FsCtx) (a : Nat) (name : List Byte) : Prop :=
  0#8 ∉ name ∧ name ≠ [] ∧ name.length < a1fsNameMax ∧ nameIs fs.data (a + 4) name = true

structure SameDirectory (fs fs' : FsCtx) (d : Nat) : Prop where
  entries : (fs'.itable d).entries = (fs.itable d).entries
  bytes : ∀ a ∈ (fs.itable d).entries, fs.SameEntry fs' a

end FsCtx

section Entry

variable {fs fs' : FsCtx} {a d j : Nat} {name : List Byte}

theorem FsCtx.SameEntry.dentryIno (same : fs.SameEntry fs' a) :
    fs'.dentryIno a = fs.dentryIno a := by
  have word : fs'.data.word32 a = fs.data.word32 a := word32_congr fun k bound => same k (by omega)
  rw [FsCtx.dentryIno, word, FsCtx.dentryIno]

theorem FsCtx.SameEntry.inUse (same : fs.SameEntry fs' a) : fs'.inUse a = fs.inUse a := by
  rw [FsCtx.inUse, same.dentryIno, FsCtx.inUse]

theorem FsCtx.SameEntry.named (same : fs.SameEntry fs' a) :
    fs'.Named a name ↔ fs.Named a name := by
  apply and_congr_right
  intro noNul
  apply and_congr_right
  intro proper
  apply and_congr_right
  intro short
  rw [a1fsNameMax] at short
  have read : nameIs fs'.data (a + 4) name = nameIs fs.data (a + 4) name := by
    apply nameIs_congr
    intro k bound
    rw [Nat.add_assoc]
    exact same (4 + k) (by omega)
  rw [read]

theorem FsCtx.Named.unique {other : List Byte} (first : fs.Named a name)
    (second : fs.Named a other) : name = other :=
  nameIs_unique first.1 second.1 first.2.2.2 second.2.2.2

namespace FsCtx.Listed

theorem named_of_nameIs (listed : fs.Listed d) (member : a ∈ (fs.itable d).entries)
    (used : fs.inUse a = true) (noNul : 0#8 ∉ name) (read : nameIs fs.data (a + 4) name = true) :
    fs.Named a name := by
  obtain ⟨proper, named⟩ := listed.named a member used
  obtain rfl := nameIs_unique noNul named.1 read named.2.2.2
  exact named

theorem entry_iff (listed : fs.Listed d) : fs.Entry d name j ↔
    ∃ a ∈ (fs.itable d).entries, fs.dentryIno a = j ∧ fs.Named a name := by
  constructor
  · rintro ⟨noNul, a, member, number, read⟩
    have used : fs.inUse a = true := inUse_iff.mpr (by omega)
    exact ⟨a, member, number, listed.named_of_nameIs member used noNul read⟩
  · rintro ⟨a, member, number, named⟩
    exact ⟨named.1, a, member, number, named.2.2.2⟩

theorem of_named (number : ∀ a ∈ (fs.itable d).entries, fs.inUse a = true → 0 ≤ fs.dentryIno a)
    (named : ∀ a ∈ (fs.itable d).entries, fs.inUse a = true → ∃ name, fs.Named a name)
    (distinct : ∀ a ∈ (fs.itable d).entries, ∀ a' ∈ (fs.itable d).entries, fs.inUse a = true →
      fs.inUse a' = true → ∀ name, fs.Named a name → fs.Named a' name → a = a')
    (ordered : (fs.itable d).entries.Pairwise fun a a' =>
      fs.inUse a' = true → fs.inUse a = true ∨ fs.data (a + 4) = 0#8) : fs.Listed d := by
  refine ⟨number, named, fun a member a' member' used used' name noNul read read' => ?_, ordered⟩
  obtain ⟨proper, proved⟩ := named a member used
  obtain ⟨proper', proved'⟩ := named a' member' used'
  obtain rfl := nameIs_unique noNul proved.1 read proved.2.2.2
  obtain rfl := nameIs_unique noNul proved'.1 read' proved'.2.2.2
  exact distinct a member a' member' used used' name proved proved'

theorem of_empty (none : (fs.itable d).entries = []) : fs.Listed d := by
  constructor <;> simp [none]

end FsCtx.Listed

end Entry

section Same

variable {fs fs' : FsCtx} {d j : Nat} {name : List Byte} {l : List Nat}

namespace FsCtx.SameDirectory

theorem of_changed (entries : (fs'.itable d).entries = (fs.itable d).entries)
    (changed : ChangedWithin 4096 fs.data fs'.data l) (apart : (fs.itable d).blocks.Disjoint l) :
    fs.SameDirectory fs' d := by
  refine ⟨entries, fun a member k bound => ?_⟩
  exact changed.disjoint apart (entry_block member (by omega) (by omega))

theorem of_blocks (blocks : (fs'.itable d).blocks = (fs.itable d).blocks)
    (changed : ChangedWithin 4096 fs.data fs'.data l) (apart : (fs.itable d).blocks.Disjoint l) :
    fs.SameDirectory fs' d :=
  of_changed (by rw [A1fsInode.entries, blocks, A1fsInode.entries]) changed apart

theorem listed (same : fs.SameDirectory fs' d) (listed : fs.Listed d) : fs'.Listed d := by
  have bytes := same.bytes
  apply FsCtx.Listed.of_named
  all_goals rw [same.entries]
  · intro a member used
    rw [(bytes a member).inUse] at used
    rw [(bytes a member).dentryIno]
    exact listed.number a member used
  · intro a member used
    rw [(bytes a member).inUse] at used
    obtain ⟨name, named⟩ := listed.named a member used
    exact ⟨name, (bytes a member).named.mpr named⟩
  · intro a member a' member' used used' name named named'
    rw [(bytes a member).inUse] at used
    rw [(bytes a' member').inUse] at used'
    have named := (bytes a member).named.mp named
    have named' := (bytes a' member').named.mp named'
    exact listed.distinct a member a' member' used used' name named.1 named.2.2.2 named'.2.2.2
  · apply listed.ordered.imp_of_mem
    intro a a' member member' ordered used
    rw [(bytes a' member').inUse] at used
    rw [(bytes a member).inUse, bytes a member 4 (by omega)]
    exact ordered used

theorem entry (same : fs.SameDirectory fs' d) (listed : fs.Listed d) :
    fs'.Entry d name j ↔ fs.Entry d name j := by
  rw [listed.entry_iff, (same.listed listed).entry_iff, same.entries]
  apply exists_congr
  intro a
  apply and_congr_right
  intro member
  rw [(same.bytes a member).dentryIno, (same.bytes a member).named]

theorem countP (same : fs.SameDirectory fs' d) :
    (fs'.itable d).entries.countP fs'.inUse = (fs.itable d).entries.countP fs.inUse := by
  rw [same.entries]
  apply List.countP_congr
  intro a member
  rw [(same.bytes a member).inUse]

end FsCtx.SameDirectory

end Same

section Add

variable {fs fs' : FsCtx} {d j : Nat} {name : List Byte} {new : List Nat}

/-- An inode gets entries behind its own, all of them free. -/
structure FsCtx.AddsEntries (fs fs' : FsCtx) (d : Nat) (new : List Nat) : Prop where
  entries : (fs'.itable d).entries = (fs.itable d).entries ++ new
  bytes : ∀ a ∈ (fs.itable d).entries, fs.SameEntry fs' a
  free : ∀ a ∈ new, fs'.inUse a = false

namespace FsCtx.AddsEntries

theorem old_of_used (adds : fs.AddsEntries fs' d new) {a : Nat}
    (member : a ∈ (fs.itable d).entries ++ new) (used : fs'.inUse a = true) :
    a ∈ (fs.itable d).entries ∧ fs.inUse a = true := by
  rcases List.mem_append.mp member with old | fresh
  · exact ⟨old, by rwa [(adds.bytes a old).inUse] at used⟩
  · rw [adds.free a fresh] at used
    cases used

theorem listed (adds : fs.AddsEntries fs' d new) (listed : fs.Listed d) : fs'.Listed d := by
  have bytes := adds.bytes
  apply FsCtx.Listed.of_named
  all_goals rw [adds.entries]
  · intro a member used
    obtain ⟨old, used⟩ := adds.old_of_used member used
    rw [(bytes a old).dentryIno]
    exact listed.number a old used
  · intro a member used
    obtain ⟨old, used⟩ := adds.old_of_used member used
    obtain ⟨name, named⟩ := listed.named a old used
    exact ⟨name, (bytes a old).named.mpr named⟩
  · intro a member a' member' used used' name named named'
    obtain ⟨old, used⟩ := adds.old_of_used member used
    obtain ⟨old', used'⟩ := adds.old_of_used member' used'
    have named := (bytes a old).named.mp named
    have named' := (bytes a' old').named.mp named'
    exact listed.distinct a old a' old' used used' name named.1 named.2.2.2 named'.2.2.2
  · rw [List.pairwise_append]
    refine ⟨listed.ordered.imp_of_mem ?_, ?_, ?_⟩
    · intro a a' member member' ordered used
      rw [(bytes a' member').inUse] at used
      rw [(bytes a member).inUse, bytes a member 4 (by omega)]
      exact ordered used
    · refine List.pairwise_of_forall_mem_list fun a _ a' fresh used => ?_
      rw [adds.free a' fresh] at used
      cases used
    · intro a _ a' fresh used
      rw [adds.free a' fresh] at used
      cases used

theorem entry (adds : fs.AddsEntries fs' d new) (listed : fs.Listed d) :
    fs'.Entry d name j ↔ fs.Entry d name j := by
  rw [listed.entry_iff, (adds.listed listed).entry_iff, adds.entries]
  constructor
  · rintro ⟨a, member, number, named⟩
    obtain ⟨old, -⟩ := adds.old_of_used member (inUse_iff.mpr (by omega))
    rw [(adds.bytes a old).dentryIno] at number
    exact ⟨a, old, number, (adds.bytes a old).named.mp named⟩
  · rintro ⟨a, old, number, named⟩
    refine ⟨a, List.mem_append_left _ old, ?_, (adds.bytes a old).named.mpr named⟩
    rw [(adds.bytes a old).dentryIno, number]

theorem countP (adds : fs.AddsEntries fs' d new) :
    (fs'.itable d).entries.countP fs'.inUse = (fs.itable d).entries.countP fs.inUse := by
  have none : new.countP fs'.inUse = 0 := by
    rw [List.countP_eq_zero]
    intro a fresh
    rw [adds.free a fresh]
    exact Bool.false_ne_true
  rw [adds.entries, List.countP_append, none, Nat.add_zero]
  apply List.countP_congr
  intro a member
  rw [(adds.bytes a member).inUse]

end FsCtx.AddsEntries

end Add

section Change

variable {fs fs' : FsCtx} {d j k addr : Nat} {name other : List Byte}

/-- One entry of an inode changes. -/
structure FsCtx.ChangesEntry (fs fs' : FsCtx) (d addr : Nat) : Prop where
  entries : (fs'.itable d).entries = (fs.itable d).entries
  nodup : (fs.itable d).entries.Nodup
  member : addr ∈ (fs.itable d).entries
  bytes : ∀ a ∈ (fs.itable d).entries, a ≠ addr → fs.SameEntry fs' a

/-- A free entry, with none before it, gets a number and a new name. -/
structure FsCtx.Enters (fs fs' : FsCtx) (d addr j : Nat) (name : List Byte) : Prop
    extends fs.ChangesEntry fs' d addr where
  free : fs.inUse addr = false
  first : ∀ before after, (fs.itable d).entries = before ++ addr :: after →
    ∀ a ∈ before, fs.inUse a = true
  number : fs'.dentryIno addr = j
  named : fs'.Named addr name
  fresh : ∀ a ∈ (fs.itable d).entries, fs.inUse a = true → ¬ fs.Named a name

/-- An entry in use becomes free and its name empty. -/
structure FsCtx.Clears (fs fs' : FsCtx) (d addr j : Nat) (name : List Byte) : Prop
    extends fs.ChangesEntry fs' d addr where
  number : fs.dentryIno addr = j
  named : fs.Named addr name
  free : fs'.inUse addr = false
  blank : fs'.data (addr + 4) = 0#8

namespace FsCtx.Enters

theorem used (enters : fs.Enters fs' d addr j name) : fs'.inUse addr = true := by
  have number := enters.number
  exact inUse_iff.mpr (by omega)

theorem listed (enters : fs.Enters fs' d addr j name) (listed : fs.Listed d) : fs'.Listed d := by
  have bytes := enters.bytes
  have old {a : Nat} (member : a ∈ (fs.itable d).entries) (differ : a ≠ addr)
      (used : fs'.inUse a = true) : fs.inUse a = true := by
    rwa [(bytes a member differ).inUse] at used
  -- the new name is no other entry's
  have apart {a : Nat} (member : a ∈ (fs.itable d).entries) (used : fs'.inUse a = true)
      {other : List Byte} (named : fs'.Named addr other) (named' : fs'.Named a other) : addr = a := by
    by_contra differ
    obtain rfl := enters.named.unique named
    exact enters.fresh a member (old member (Ne.symm differ) used)
      ((bytes a member (Ne.symm differ)).named.mp named')
  apply FsCtx.Listed.of_named
  all_goals rw [enters.entries]
  · intro a member used
    by_cases same : a = addr
    · rw [same, enters.number]
      omega
    · rw [(bytes a member same).dentryIno]
      exact listed.number a member (old member same used)
  · intro a member used
    by_cases same : a = addr
    · exact ⟨name, same ▸ enters.named⟩
    · obtain ⟨other, named⟩ := listed.named a member (old member same used)
      exact ⟨other, (bytes a member same).named.mpr named⟩
  · intro a member a' member' used used' other named named'
    by_cases same : a = addr
    · subst same
      exact apart member' used' named named'
    · by_cases same' : a' = addr
      · subst same'
        exact (apart member used named' named).symm
      · have named := (bytes a member same).named.mp named
        have named' := (bytes a' member' same').named.mp named'
        exact listed.distinct a member a' member' (old member same used) (old member' same' used')
          other named.1 named.2.2.2 named'.2.2.2
  · obtain ⟨before, after, split⟩ := List.append_of_mem enters.member
    have first := enters.first before after split
    have ordered := listed.ordered
    have absent : addr ∉ after := by
      have nodup := enters.nodup
      rw [split, List.nodup_middle, List.nodup_cons] at nodup
      exact fun within => nodup.1 (List.mem_append_right _ within)
    have member {a : Nat} (within : a ∈ before ∨ a = addr ∨ a ∈ after) :
        a ∈ (fs.itable d).entries := by
      rw [split, List.mem_append, List.mem_cons]
      exact within
    have usedBefore {a : Nat} (within : a ∈ before) : fs'.inUse a = true := by
      by_cases same : a = addr
      · rw [same, enters.used]
      · rw [(bytes a (member (.inl within)) same).inUse, first a within]
    rw [split, List.pairwise_append, List.pairwise_cons] at ordered ⊢
    obtain ⟨-, ⟨-, rest⟩, -⟩ := ordered
    refine ⟨?_, ⟨fun a within _ => .inl enters.used, ?_⟩, fun a within a' _ _ => .inl (usedBefore within)⟩
    · exact List.pairwise_of_forall_mem_list fun a within a' _ _ => .inl (usedBefore within)
    · apply rest.imp_of_mem
      intro a a' within within' ordered used
      have differ : a ≠ addr := fun same => absent (same ▸ within)
      have differ' : a' ≠ addr := fun same => absent (same ▸ within')
      rw [(bytes a (member (.inr (.inr within))) differ).inUse,
        bytes a (member (.inr (.inr within))) differ 4 (by omega)]
      exact ordered (old (member (.inr (.inr within'))) differ' used)

theorem entry (enters : fs.Enters fs' d addr j name) (listed : fs.Listed d) :
    fs'.Entry d other k ↔ fs.Entry d other k ∨ (other = name ∧ k = j) := by
  have bytes := enters.bytes
  rw [listed.entry_iff, (enters.listed listed).entry_iff, enters.entries]
  constructor
  · rintro ⟨a, member, number, named⟩
    by_cases same : a = addr
    · rw [same, enters.number] at number
      exact .inr ⟨(same ▸ named).unique enters.named, by omega⟩
    · rw [(bytes a member same).dentryIno] at number
      exact .inl ⟨a, member, number, (bytes a member same).named.mp named⟩
  · rintro (⟨a, member, number, named⟩ | ⟨rfl, rfl⟩)
    · have differ : a ≠ addr := by
        rintro rfl
        have used : fs.inUse a = true := inUse_iff.mpr (by omega)
        rw [enters.free] at used
        cases used
      refine ⟨a, member, ?_, (bytes a member differ).named.mpr named⟩
      rw [(bytes a member differ).dentryIno, number]
    · exact ⟨addr, enters.member, enters.number, enters.named⟩

theorem countP (enters : fs.Enters fs' d addr j name) :
    (fs'.itable d).entries.countP fs'.inUse = (fs.itable d).entries.countP fs.inUse + 1 := by
  rw [enters.entries]
  have count := countP_update enters.nodup enters.member fun a member differ =>
    (enters.bytes a member differ).inUse
  rw [enters.free, enters.used] at count
  exact count

end FsCtx.Enters

namespace FsCtx.Clears

theorem used (clears : fs.Clears fs' d addr j name) : fs.inUse addr = true := by
  have number := clears.number
  exact inUse_iff.mpr (by omega)

theorem old_of_used (clears : fs.Clears fs' d addr j name) {a : Nat}
    (member : a ∈ (fs.itable d).entries) (used : fs'.inUse a = true) :
    fs.SameEntry fs' a ∧ fs.inUse a = true := by
  have differ : a ≠ addr := by
    rintro rfl
    rw [clears.free] at used
    cases used
  have bytes := clears.bytes a member differ
  exact ⟨bytes, by rwa [bytes.inUse] at used⟩

theorem listed (clears : fs.Clears fs' d addr j name) (listed : fs.Listed d) : fs'.Listed d := by
  apply FsCtx.Listed.of_named
  all_goals rw [clears.entries]
  · intro a member used
    obtain ⟨bytes, used⟩ := clears.old_of_used member used
    rw [bytes.dentryIno]
    exact listed.number a member used
  · intro a member used
    obtain ⟨bytes, used⟩ := clears.old_of_used member used
    obtain ⟨other, named⟩ := listed.named a member used
    exact ⟨other, bytes.named.mpr named⟩
  · intro a member a' member' used used' other named named'
    obtain ⟨bytes, used⟩ := clears.old_of_used member used
    obtain ⟨bytes', used'⟩ := clears.old_of_used member' used'
    have named := bytes.named.mp named
    have named' := bytes'.named.mp named'
    exact listed.distinct a member a' member' used used' other named.1 named.2.2.2 named'.2.2.2
  · apply listed.ordered.imp_of_mem
    intro a a' member member' ordered used
    obtain ⟨-, used⟩ := clears.old_of_used member' used
    by_cases same : a = addr
    · exact .inr (same ▸ clears.blank)
    · have bytes := clears.bytes a member same
      rw [bytes.inUse, bytes 4 (by omega)]
      exact ordered used

theorem entry (clears : fs.Clears fs' d addr j name) (listed : fs.Listed d) :
    fs'.Entry d other k ↔ fs.Entry d other k ∧ ¬ (other = name ∧ k = j) := by
  rw [listed.entry_iff, (clears.listed listed).entry_iff, clears.entries]
  constructor
  · rintro ⟨a, member, number, named⟩
    have used' : fs'.inUse a = true := inUse_iff.mpr (by omega)
    obtain ⟨bytes, used⟩ := clears.old_of_used member used'
    have named := bytes.named.mp named
    rw [bytes.dentryIno] at number
    refine ⟨⟨a, member, number, named⟩, ?_⟩
    rintro ⟨rfl, -⟩
    obtain rfl := listed.distinct a member addr clears.member used clears.used other named.1
      named.2.2.2 clears.named.2.2.2
    rw [clears.free] at used'
    cases used'
  · rintro ⟨⟨a, member, number, named⟩, apart⟩
    have differ : a ≠ addr := by
      rintro rfl
      refine apart ⟨named.unique clears.named, ?_⟩
      have same := clears.number
      omega
    have bytes := clears.bytes a member differ
    exact ⟨a, member, by rw [bytes.dentryIno, number], bytes.named.mpr named⟩

theorem countP (clears : fs.Clears fs' d addr j name) :
    (fs'.itable d).entries.countP fs'.inUse + 1 = (fs.itable d).entries.countP fs.inUse := by
  rw [clears.entries]
  have count := countP_update clears.nodup clears.member fun a member differ =>
    (clears.bytes a member differ).inUse
  rw [clears.used, clears.free] at count
  exact count

end FsCtx.Clears

end Change

section Names

variable {fs : FsCtx} {d a : Nat} {name : List Byte}

theorem cstringFrom_named {room : Nat} (noNul : 0#8 ∉ name) (inside : name.length < room)
    (read : nameIs fs.data a name = true) : cstringFrom fs room a = .ok name := by
  induction name generalizing a room with
  | nil =>
    obtain ⟨room, rfl⟩ : ∃ n, room = n + 1 := ⟨room - 1, by omega⟩
    rw [nameIs, beq_iff_eq] at read
    rw [cstringFrom, if_pos read]
  | cons c cs ih =>
    rw [List.length_cons] at inside
    obtain ⟨room, rfl⟩ : ∃ n, room = n + 1 := ⟨room - 1, by omega⟩
    rw [nameIs, Bool.and_eq_true, beq_iff_eq] at read
    have proper : c ≠ 0#8 := by
      rintro rfl
      exact noNul List.mem_cons_self
    have rest : cstringFrom fs room (a + 1) = .ok cs :=
      ih (fun member => noNul (List.mem_cons_of_mem _ member)) (by omega) read.2
    rw [cstringFrom, read.1, if_neg proper, rest]
    rfl

def FsCtx.nameOf (fs : FsCtx) (a : Nat) : List Byte := ((nameAt fs (a + 4)).toOption).getD []

theorem FsCtx.Named.nameAt (named : fs.Named a name) (inside : a + 256 ≤ fs.dataSize) :
    ExtentFs.nameAt fs (a + 4) = .ok name := by
  obtain ⟨noNul, -, short, read⟩ := named
  rw [a1fsNameMax] at short
  exact cstringFrom_named noNul (by omega) read

def FsCtx.names (fs : FsCtx) (d : Nat) : List (List Byte) :=
  ((fs.itable d).entries.filter fs.inUse).map fs.nameOf

/-- What the names of free entries say is empty. -/
def FsCtx.Blank (fs : FsCtx) (d : Nat) : Prop :=
  ∀ a ∈ (fs.itable d).entries, fs.inUse a = false → fs.data (a + 4) = 0#8

theorem FsCtx.Readable.entry (readable : fs.Readable (fs.itable d))
    (member : a ∈ (fs.itable d).entries) : a + 256 ≤ fs.dataSize := by
  obtain ⟨b, block, slot⟩ := A1fsInode.mem_entries.mp member
  have place := blockEntries_place slot
  have inside := readable.inside b block
  omega

theorem FsCtx.Listed.nameOf (listed : fs.Listed d) (readable : fs.Readable (fs.itable d))
    (member : a ∈ (fs.itable d).entries) (used : fs.inUse a = true) :
    fs.Named a (fs.nameOf a) ∧ ExtentFs.nameAt fs (a + 4) = .ok (fs.nameOf a) := by
  obtain ⟨name, named⟩ := listed.named a member used
  have read := FsCtx.Named.nameAt named (readable.entry member)
  have same : fs.nameOf a = name := by rw [FsCtx.nameOf, read]; rfl
  rw [same]
  exact ⟨named, read⟩

theorem flatMap_filter {l : List Nat} {q : Nat → Bool} {f : Nat → List Byte} :
    (l.flatMap fun a => if q a = true then [f a] else []) = (l.filter q).map f := by
  induction l with
  | nil => rfl
  | cons a l ih =>
    rw [List.flatMap_cons, ih, List.filter_cons]
    cases q a <;> rfl

theorem a1fsReaddir_names {path : CString} {env : Env} (listed : fs.Listed d)
    (readable : fs.Readable (fs.itable d)) (blank : fs.Blank d)
    (count : (d : Int) < fs.sb.sbInodesCount) (absolute : path.bytes.head? = some slash)
    (number : getInodeNum fs path 0 = .ok (d : Int)) :
    a1fsReaddir env fs path = .ok (0, fs.names d ++ [[46#8], [46#8, 46#8]]) := by
  have read : fs.inodeAt (d : Int) = .ok (fs.itable d) := inodeAt_ok.mpr ⟨⟨by omega, count⟩, rfl⟩
  have test (a : Nat) (member : a ∈ (fs.itable d).entries) :
      (if fs.data (a + 4) ≠ 0#8 then do return [← nameAt fs (a + 4)] else return []) =
        (.ok (if fs.inUse a = true then [fs.nameOf a] else []) : Checked (List (List Byte))) := by
    cases used : fs.inUse a with
    | false =>
      rw [if_neg (not_not.mpr (blank a member used)), if_neg Bool.false_ne_true]
      rfl
    | true =>
      obtain ⟨named, same⟩ := listed.nameOf readable member used
      rw [if_pos (nameIs_head named.1 named.2.1 named.2.2.2), if_pos rfl, same]
      rfl
  have whole : (fs.names d) = (fs.itable d).usedSlots.flatMap fun i =>
      ((fs.itable d).iExtent i).blocks.flatMap fun j =>
        (List.range' 0 16 256).flatMap fun k =>
          if fs.inUse (4096 * j + k) = true then [fs.nameOf (4096 * j + k)] else [] := by
    rw [FsCtx.names, ← flatMap_filter, A1fsInode.entries, List.flatMap_assoc, A1fsInode.blocks,
      List.flatMap_assoc]
    refine List.flatMap_congr fun i _ => List.flatMap_congr fun j _ => ?_
    rw [blockEntries, List.flatMap_map]
  rw [a1fsReaddir, if_neg (not_not.mpr absolute), number, ok_bind, if_neg (by omega), read, ok_bind,
    whole]
  refine congrArg (fun names => names >>= _) (flatMapM_ok fun i slot => ?_)
  have used := A1fsInode.mem_usedSlots.mp slot
  have last := readable.slots
  have extent : (fs.itable d).extentAt i = .ok ((fs.itable d).iExtent i) := if_pos (by omega)
  rw [extent, ok_bind]
  refine flatMapM_ok fun j member => flatMapM_ok fun k entry => ?_
  have block : j ∈ (fs.itable d).blocks := A1fsInode.mem_blocks.mpr ⟨i, slot, member⟩
  have inside := readable.inside j block
  have place : 4096 * j + k ∈ (fs.itable d).entries :=
    A1fsInode.mem_entries.mpr ⟨j, block, List.mem_map.mpr ⟨k, entry, rfl⟩⟩
  rw [List.mem_range'] at entry
  rw [dentryAddr_ok.mpr ⟨inside.1, by omega, rfl⟩, ok_bind, test _ place]

section Lookup

variable (listed : fs.Listed d) (readable : fs.Readable (fs.itable d))

include listed readable

theorem FsCtx.Listed.names_nodup (nodup : (fs.itable d).entries.Nodup) : (fs.names d).Nodup := by
  refine (nodup.filter fs.inUse).map_on fun a first a' second same => ?_
  rw [List.mem_filter] at first second
  have named := (listed.nameOf readable first.1 first.2).1
  have named' := (listed.nameOf readable second.1 second.2).1
  rw [← same] at named'
  exact listed.distinct a first.1 a' second.1 first.2 second.2 _ named.1 named.2.2.2 named'.2.2.2

theorem FsCtx.Listed.mem_names : name ∈ fs.names d ↔ ∃ j, fs.Entry d name j := by
  rw [FsCtx.names, List.mem_map]
  constructor
  · rintro ⟨a, member, rfl⟩
    obtain ⟨member, used⟩ := List.mem_filter.mp member
    have number := listed.number a member used
    exact ⟨(fs.dentryIno a).toNat, listed.entry_iff.mpr
      ⟨a, member, by omega, (listed.nameOf readable member used).1⟩⟩
  · rintro ⟨j, entry⟩
    obtain ⟨a, member, number, named⟩ := listed.entry_iff.mp entry
    have used : fs.inUse a = true := inUse_iff.mpr (by omega)
    exact ⟨a, List.mem_filter.mpr ⟨member, used⟩, (listed.nameOf readable member used).1.unique named⟩

/-- A lookup finds a number exactly under the names of the entries in use. -/
theorem FsCtx.Listed.lookup_iff (count : (d : Int) < fs.sb.sbInodesCount) (noNul : 0#8 ∉ name) :
    (∃ r, 0 ≤ r ∧ inodeLookup fs d name = .ok r) ↔ ∃ j, fs.Entry d name j := by
  constructor
  · rintro ⟨r, nonneg, look⟩
    obtain ⟨-, rfl⟩ := inodeLookup_ok look
    obtain ⟨j, -, entry⟩ := listed.entry_of_entryNamed noNul (by omega)
    exact ⟨j, entry⟩
  · rintro ⟨j, entry⟩
    obtain ⟨a, -, -, named⟩ := listed.entry_iff.mp entry
    refine ⟨j, by omega, ?_⟩
    rw [inodeLookup_returns count readable named.2.2.1, listed.entryNamed_eq named.2.1 entry]

end Lookup

end Names

end ExtentFs
