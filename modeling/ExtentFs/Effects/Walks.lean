import Mathlib.Data.List.TakeWhile
import ExtentFs.Effects.Names

namespace ExtentFs

open Base Base.Bytes

section Tokens

variable {bytes xs ys token : List Byte}

theorem splitToken_cons {c : Byte} : splitToken (c :: bytes) =
    if c = slash then ([], if (splitToken bytes).1 = [] then (splitToken bytes).2
      else (splitToken bytes).1 :: (splitToken bytes).2)
    else (c :: (splitToken bytes).1, (splitToken bytes).2) := rfl

theorem splitToken_members : (∀ c ∈ (splitToken bytes).1, c ∈ bytes) ∧
    ∀ token ∈ (splitToken bytes).2, token ≠ [] ∧ ∀ c ∈ token, c ∈ bytes := by
  induction bytes with
  | nil => simp [splitToken]
  | cons b bytes ih =>
    obtain ⟨first, rest⟩ := ih
    have later : ∀ token ∈ (splitToken bytes).2, token ≠ [] ∧ ∀ c ∈ token, c ∈ b :: bytes :=
      fun token member => ⟨(rest token member).1, fun c inside =>
        List.mem_cons_of_mem _ ((rest token member).2 c inside)⟩
    rw [splitToken_cons]
    split
    · refine ⟨by simp, fun token member => ?_⟩
      dsimp only at member
      split at member
      · exact later token member
      · rename_i some
        rcases List.mem_cons.mp member with rfl | member
        · exact ⟨some, fun c inside => List.mem_cons_of_mem _ (first c inside)⟩
        · exact later token member
    · refine ⟨fun c member => ?_, later⟩
      rcases List.mem_cons.mp member with rfl | member
      · exact List.mem_cons_self
      · exact List.mem_cons_of_mem _ (first c member)

theorem mem_strtok (member : token ∈ strtok bytes) : token ≠ [] ∧ ∀ c ∈ token, c ∈ bytes := by
  have split_ : (∀ c ∈ (splitToken bytes).1, c ∈ bytes) ∧
      ∀ token ∈ (splitToken bytes).2, token ≠ [] ∧ ∀ c ∈ token, c ∈ bytes := splitToken_members
  rw [strtok] at member
  dsimp only at member
  split at member
  · exact split_.2 token member
  · rename_i some
    rcases List.mem_cons.mp member with rfl | member
    · exact ⟨some, split_.1⟩
    · exact split_.2 token member

theorem splitToken_plain (plain : slash ∉ ys) : splitToken ys = (ys, []) := by
  induction ys with
  | nil => rfl
  | cons c ys ih =>
    have differ : c ≠ slash := fun same => plain (by simp [same])
    rw [splitToken_cons, ih fun member => plain (by simp [member]), if_neg differ]

theorem splitToken_last (plain : slash ∉ ys) (some : ys ≠ []) :
    splitToken (xs ++ slash :: ys) = ((splitToken xs).1, (splitToken xs).2 ++ [ys]) := by
  induction xs with
  | nil =>
    rw [List.nil_append, splitToken_cons, splitToken_plain plain, if_pos rfl, if_neg some]
    rfl
  | cons c xs ih =>
    rw [List.cons_append, splitToken_cons, ih, splitToken_cons]
    split
    · split <;> rfl
    · rfl

theorem strtok_last (plain : slash ∉ ys) (some : ys ≠ []) :
    strtok (xs ++ slash :: ys) = strtok xs ++ [ys] := by
  simp only [strtok, splitToken_last plain some]
  split <;> rfl

theorem strrchr_split (has : slash ∈ bytes) :
    slash ∉ strrchr bytes ∧ ∃ before, bytes = before ++ slash :: strrchr bytes := by
  have plain : slash ∉ bytes.reverse.takeWhile (· ≠ slash) := by
    intro member
    simpa using List.mem_takeWhile_imp member
  refine ⟨fun member => plain (List.mem_reverse.mp member), ?_⟩
  obtain ⟨rest, parts⟩ : ∃ rest, bytes.reverse =
      bytes.reverse.takeWhile (· ≠ slash) ++ slash :: rest := by
    have whole := List.takeWhile_append_dropWhile (p := fun c => decide (c ≠ slash)) (l := bytes.reverse)
    cases after : bytes.reverse.dropWhile (· ≠ slash) with
    | nil =>
      rw [after, List.append_nil] at whole
      rw [whole] at plain
      exact absurd (List.mem_reverse.mpr has) plain
    | cons c rest =>
      have stop := List.head?_dropWhile_not (fun c => decide (c ≠ slash)) bytes.reverse
      rw [after] at stop whole
      obtain rfl : c = slash := by simpa using stop
      exact ⟨rest, whole.symm⟩
  refine ⟨rest.reverse, ?_⟩
  have back := congrArg List.reverse parts
  rw [List.reverse_reverse, List.reverse_append, List.reverse_cons, List.append_assoc] at back
  exact back

end Tokens

section Paths

variable {path : CString} {token : List Byte}

theorem token_noNul (member : token ∈ strtok path.bytes) : 0#8 ∉ token :=
  fun zero => path.noNul ((mem_strtok member).2 _ zero)

theorem WellShaped.proper (shaped : WellShaped path) (member : token ∈ strtok path.bytes) :
    0#8 ∉ token ∧ token ≠ [] ∧ token.length < a1fsNameMax :=
  ⟨token_noNul member, (mem_strtok member).1, shaped.2.2.2 token member⟩

theorem strtok_split {bytes : List Byte} (has : slash ∈ bytes) (noTrailing : bytes.getLast? ≠ some slash) :
    ∃ before, bytes = before ++ slash :: strrchr bytes ∧ strtok bytes = strtok before ++ [strrchr bytes] := by
  obtain ⟨plain, before, parts⟩ := strrchr_split has
  have last : strrchr bytes ≠ [] := by
    intro empty
    rw [empty] at parts
    rw [parts] at noTrailing
    simp at noTrailing
  have tokens : strtok (before ++ slash :: strrchr bytes) = strtok before ++ [strrchr bytes] :=
    strtok_last plain last
  rw [← parts] at tokens
  exact ⟨before, parts, tokens⟩

theorem strtok_strrchr (shaped : WellShaped path) (some : strtok path.bytes ≠ []) :
    strtok path.bytes = (strtok path.bytes).dropLast ++ [strrchr path.bytes] := by
  obtain ⟨absolute, root, -⟩ := shaped
  have noTrailing : path.bytes.getLast? ≠ Option.some slash := by
    intro trailing
    rw [root trailing] at some
    exact some rfl
  obtain ⟨before, -, tokens⟩ := strtok_split (List.mem_of_mem_head? absolute) noTrailing
  rw [tokens, List.dropLast_concat]

end Paths

namespace FsCtx

def inUse (fs : FsCtx) (a : Nat) : Bool := fs.dentryIno a != -1

def Entry (fs : FsCtx) (d : Nat) (name : List Byte) (j : Nat) : Prop :=
  0#8 ∉ name ∧ ∃ a ∈ (fs.itable d).entries, fs.dentryIno a = j ∧ nameIs fs.data (a + 4) name = true

/-- One step of a path: an entry of an inode that is a directory. -/
def Edge (fs : FsCtx) (d : Nat) (name : List Byte) (j : Nat) : Prop :=
  sIsdir (fs.itable d).mode = true ∧ fs.Entry d name j

/-- The entries of an inode: those in use have numbers and distinct names, and what the names
    of free entries still say stands behind all of them. -/
structure Listed (fs : FsCtx) (d : Nat) : Prop where
  number : ∀ a ∈ (fs.itable d).entries, fs.inUse a = true → 0 ≤ fs.dentryIno a
  named : ∀ a ∈ (fs.itable d).entries, fs.inUse a = true →
    ∃ name, 0#8 ∉ name ∧ name ≠ [] ∧ name.length < a1fsNameMax ∧
      nameIs fs.data (a + 4) name = true
  distinct : ∀ a ∈ (fs.itable d).entries, ∀ a' ∈ (fs.itable d).entries, fs.inUse a = true →
    fs.inUse a' = true → ∀ name, 0#8 ∉ name → nameIs fs.data (a + 4) name = true →
    nameIs fs.data (a' + 4) name = true → a = a'
  ordered : (fs.itable d).entries.Pairwise fun a a' =>
    fs.inUse a' = true → fs.inUse a = true ∨ fs.data (a + 4) = 0#8

end FsCtx

section Lookup

variable {fs : FsCtx} {d j : Nat} {name token : List Byte} {r : Int}

theorem inUse_iff {a : Nat} : fs.inUse a = true ↔ fs.dentryIno a ≠ -1 := by
  rw [FsCtx.inUse, bne_iff_ne]

/-- The first entry with a name is the one in use, if there is one. -/
theorem FsCtx.Listed.found_used (listed : fs.Listed d) (noNul : 0#8 ∉ name) (proper : name ≠ [])
    {a a' : Nat} (found : (fs.itable d).entries.find? (fun a => nameIs fs.data (a + 4) name) = some a')
    (member : a ∈ (fs.itable d).entries) (used : fs.inUse a = true)
    (named : nameIs fs.data (a + 4) name = true) : a' = a := by
  obtain ⟨named', before, after, split, earlier⟩ := List.find?_eq_some_iff_append.mp found
  have member' : a' ∈ (fs.itable d).entries := by rw [split]; simp
  cases used' : fs.inUse a' with
  | true => exact listed.distinct a' member' a member used' used name noNul named' named
  | false =>
    exfalso
    have ordered := listed.ordered
    rw [split, List.pairwise_append, List.pairwise_cons] at ordered
    rw [split, List.mem_append, List.mem_cons] at member
    rcases member with early | rfl | late
    · simpa [named] using earlier a early
    · rw [used] at used'
      cases used'
    · rcases ordered.2.1.1 a late used with used'' | empty
      · rw [used''] at used'
        cases used'
      · exact nameIs_head noNul proper named' empty

theorem FsCtx.Listed.entryNamed_eq (listed : fs.Listed d) (proper : name ≠ [])
    (entry : fs.Entry d name j) : fs.entryNamed (fs.itable d) name = j := by
  obtain ⟨noNul, a, member, number, named⟩ := entry
  have used : fs.inUse a = true := by
    rw [inUse_iff]
    omega
  rw [FsCtx.entryNamed]
  cases found : (fs.itable d).entries.find? fun a => nameIs fs.data (a + 4) name with
  | none =>
    rw [List.find?_eq_none] at found
    exact absurd named (found a member)
  | some a' =>
    obtain rfl := listed.found_used noNul proper found member used named
    exact number

theorem FsCtx.Listed.entry_of_entryNamed (listed : fs.Listed d) (noNul : 0#8 ∉ name)
    (found : fs.entryNamed (fs.itable d) name ≠ -1) :
    ∃ j : Nat, fs.entryNamed (fs.itable d) name = j ∧ fs.Entry d name j := by
  rw [FsCtx.entryNamed] at found ⊢
  cases search : (fs.itable d).entries.find? fun a => nameIs fs.data (a + 4) name with
  | none =>
    rw [search] at found
    exact absurd rfl found
  | some a =>
    rw [search] at found
    have member := List.mem_of_find?_eq_some search
    have named := List.find?_some search
    have number := listed.number a member (inUse_iff.mpr found)
    exact ⟨(fs.dentryIno a).toNat, by simp [Int.toNat_of_nonneg number], noNul, a, member,
      (Int.toNat_of_nonneg number).symm, named⟩

theorem FsCtx.Listed.target_unique (listed : fs.Listed d) {k : Nat} (proper : name ≠ [])
    (first : fs.Entry d name j) (second : fs.Entry d name k) : j = k := by
  have same := listed.entryNamed_eq proper first
  rw [listed.entryNamed_eq proper second] at same
  omega

end Lookup

section Walk

variable {fs : FsCtx} {P : Nat → Prop}

/-- A set of inodes that the entries of its directories do not leave, all of them listed. -/
structure FsCtx.Closed (fs : FsCtx) (P : Nat → Prop) : Prop where
  passes : ∀ d name j, fs.Edge d name j → P d → P j
  listed : ∀ d, P d → sIsdir (fs.itable d).mode = true → fs.Listed d

theorem walkTokens_walk (closed : fs.Closed P) {d p : Nat} {tokens rest : List (List Byte)}
    {par : Int} {r : Int × Int} (start : P d) (walk : Walk fs.Edge d tokens p)
    (proper : ∀ token ∈ tokens, token ≠ []) (h : walkTokens fs (tokens ++ rest) par d = .ok r) :
    ∃ par', walkTokens fs rest par' p = .ok r ∧ (tokens = [] → par' = par) := by
  induction walk generalizing par with
  | nil => exact ⟨par, h, fun _ => rfl⟩
  | @cons d j p token path head tail ih =>
    rw [List.cons_append, walkTokens, if_pos (by omega), bind_eq_ok] at h
    obtain ⟨next, look, h⟩ := h
    obtain ⟨-, rfl⟩ := inodeLookup_ok look
    have listed := closed.listed d start head.1
    rw [listed.entryNamed_eq (proper token (by simp)) head.2] at h
    obtain ⟨par', after, -⟩ := ih (closed.passes _ _ _ head start)
      (fun token member => proper token (by simp [member])) h
    exact ⟨par', after, by simp⟩

theorem walkTokens_returns (closed : fs.Closed P) {d p : Nat} {tokens rest : List (List Byte)}
    {par : Int} (start : P d) (walk : Walk fs.Edge d tokens p)
    (proper : ∀ token ∈ tokens, token ≠ [] ∧ token.length < a1fsNameMax)
    (inside : ∀ d, P d → (d : Int) < fs.sb.sbInodesCount ∧ fs.Readable (fs.itable d)) :
    ∃ par', walkTokens fs (tokens ++ rest) par d = walkTokens fs rest par' p := by
  induction walk generalizing par with
  | nil => exact ⟨par, rfl⟩
  | @cons d j p token path head tail ih =>
    obtain ⟨some, short⟩ := proper token (by simp)
    obtain ⟨count, readable⟩ := inside d start
    rw [List.cons_append, walkTokens, if_pos (by omega), inodeLookup_returns count readable short,
      ok_bind, (closed.listed d start head.1).entryNamed_eq some head.2]
    exact ih (closed.passes _ _ _ head start) fun token member => proper token (by simp [member])

/-- The program finds what the callers have checked component by component. -/
theorem walkTo_tokens {d p : Nat} {tokens : List (List Byte)} {par : Int}
    (h : walkTo fs d tokens = some p) : ∃ par', walkTokens fs tokens par d = .ok (par', (p : Int)) := by
  induction tokens generalizing d par with
  | nil =>
    cases h
    exact ⟨par, rfl⟩
  | cons token tokens ih =>
    rw [walkTo] at h
    split at h
    · split at h
      · rename_i j look
        split at h
        · rename_i range
          rw [walkTokens, if_pos (by omega), look, ok_bind]
          obtain ⟨n, rfl⟩ : ∃ n : Nat, j = n := ⟨j.toNat, by omega⟩
          exact ih h
        · cases h
      · cases h
    · cases h

/-- What the callers have checked component by component is a walk through entries. -/
theorem walkTo_walk (closed : fs.Closed P) {d p : Nat} {tokens : List (List Byte)} (start : P d)
    (proper : ∀ token ∈ tokens, 0#8 ∉ token) (h : walkTo fs d tokens = some p) :
    Walk fs.Edge d tokens p := by
  induction tokens generalizing d with
  | nil =>
    cases h
    exact .nil
  | cons token tokens ih =>
    rw [walkTo] at h
    split at h
    · rename_i dir
      split at h
      · rename_i j look
        split at h
        · rename_i range
          obtain ⟨-, same⟩ := inodeLookup_ok look
          obtain ⟨j', found, entry⟩ := (closed.listed d start dir).entry_of_entryNamed
            (proper token (by simp)) (by omega)
          have number : j.toNat = j' := by omega
          rw [number] at h
          exact .cons ⟨dir, entry⟩ (ih (closed.passes _ _ _ ⟨dir, entry⟩ start)
            (fun token member => proper token (by simp [member])) h)
        · cases h
      · cases h
    · cases h

theorem walk_walkTo (closed : fs.Closed P) {d p : Nat} {tokens : List (List Byte)} (start : P d)
    (walk : Walk fs.Edge d tokens p)
    (proper : ∀ token ∈ tokens, token ≠ [] ∧ token.length < a1fsNameMax)
    (inside : ∀ d, P d → (d : Int) < fs.sb.sbInodesCount ∧ fs.Readable (fs.itable d)) :
    walkTo fs d tokens = some p := by
  induction walk with
  | nil => rfl
  | @cons d j p token path head tail ih =>
    obtain ⟨some, short⟩ := proper token (by simp)
    obtain ⟨count, readable⟩ := inside d start
    have next := closed.passes _ _ _ head start
    have look : inodeLookup fs d token = .ok (j : Int) := by
      rw [inodeLookup_returns count readable short, (closed.listed d start head.1).entryNamed_eq some head.2]
    rw [walkTo, if_pos head.1, look]
    simp only [Int.toNat_natCast]
    rw [if_pos ⟨by omega, (inside j next).1⟩]
    exact ih next fun token member => proper token (by simp [member])

end Walk

section Numbers

variable {fs : FsCtx} {P : Nat → Prop} {path : CString} {p : Nat} {r : Int}

theorem getInodeNum_of_resolve (found : fs.resolve path = some p) :
    getInodeNum fs path 0 = .ok (p : Int) := by
  obtain ⟨par, walked⟩ : ∃ par, walkTokens fs (strtok path.bytes) 0 0 = .ok (par, (p : Int)) :=
    walkTo_tokens found
  rw [getInodeNum, walked]
  rfl

theorem getInodeNum_walk (closed : fs.Closed P) (start : P 0)
    (walk : Walk fs.Edge 0 (strtok path.bytes) p) (h : getInodeNum fs path 0 = .ok r) : r = p := by
  rw [getInodeNum, bind_eq_ok] at h
  obtain ⟨⟨par, cur⟩, walked, h⟩ := h
  cases h
  have proper : ∀ token ∈ strtok path.bytes, token ≠ [] := fun _ member => (mem_strtok member).1
  rw [← List.append_nil (strtok path.bytes)] at walked
  obtain ⟨par', done, -⟩ := walkTokens_walk (d := 0) closed start walk proper walked
  cases done
  rfl

theorem getInodeNum_parent (closed : fs.Closed P) (start : P 0)
    (walk : Walk fs.Edge 0 (strtok path.bytes).dropLast p) (h : getInodeNum fs path 1 = .ok r) :
    r = p := by
  rw [getInodeNum, bind_eq_ok] at h
  obtain ⟨⟨par, cur⟩, walked, h⟩ := h
  cases h
  have proper : ∀ token ∈ (strtok path.bytes).dropLast, token ≠ [] :=
    fun _ member => (mem_strtok (List.mem_of_mem_dropLast member)).1
  rcases List.eq_nil_or_concat (strtok path.bytes) with none | ⟨before, last, split⟩
  · rw [none] at walked walk
    cases walk
    cases walked
    rfl
  · rw [List.concat_eq_append] at split
    rw [split, List.dropLast_concat] at walk proper
    rw [split] at walked
    obtain ⟨par', done, -⟩ := walkTokens_walk (d := 0) closed start walk proper walked
    rw [walkTokens, if_pos (by omega), bind_eq_ok] at done
    obtain ⟨next, -, done⟩ := done
    cases done
    rfl

theorem walkTokens_parent {tokens : List (List Byte)} {par cur : Int} {r : Int × Int} (low : 0 ≤ par)
    (h : walkTokens fs tokens par cur = .ok r) : 0 ≤ r.1 := by
  induction tokens generalizing par cur with
  | nil =>
    cases h
    exact low
  | cons token tokens ih =>
    rw [walkTokens, bind_eq_ok] at h
    obtain ⟨next, look, h⟩ := h
    refine ih ?_ h
    have some : (if cur ≠ -1 then cur else par) ≠ -1 := by split <;> omega
    rw [inodeLookup, if_neg some, bind_eq_ok] at look
    obtain ⟨dir, read, -⟩ := look
    exact (inodeAt_ok.mp read).1.1

theorem getInodeNum_parent_nonneg (h : getInodeNum fs path 1 = .ok r) : 0 ≤ r := by
  rw [getInodeNum, bind_eq_ok] at h
  obtain ⟨⟨par, cur⟩, walked, h⟩ := h
  cases h
  exact walkTokens_parent (le_refl _) walked

end Numbers

end ExtentFs
