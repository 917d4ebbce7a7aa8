import ExtentFs.Guarantees.Listings
import ExtentFs.Invariants.Names

namespace ExtentFs

open Base

/-- What a path should resolve to: its inode, and the directory that should hold its last
    component. -/
structure ResolvesPath (fs : FsCtx) (path : CString) : Prop where
  target : ∃ r, getInodeNum fs path 0 = .ok r ∧
    ((∃ j : Nat, fs.Leads (strtok path.bytes) j ∧ r = j) ∨
      (∀ j, ¬ fs.Leads (strtok path.bytes) j) ∧ r < 0)
  parent : ∃ r, getInodeNum fs path 1 = .ok r ∧
    ((∃ d : Nat, (fs.Leads (strtok path.bytes).dropLast d ∧ sIsdir (fs.itable d).mode = true) ∧ r = d) ∨
      (∀ d, ¬ (fs.Leads (strtok path.bytes).dropLast d ∧ sIsdir (fs.itable d).mode = true)) ∧ r < 0)
  getattr : ∀ r stat, a1fsGetattr fs path = .ok (r, some stat) →
    ∃ j, fs.Leads (strtok path.bytes) j ∧ stat.stMode = (fs.itable j).mode ∧
      stat.stNlink = (fs.itable j).links ∧ stat.stSize = (fs.itable j).size ∧
      stat.stMtim = (fs.itable j).iMtime

section Resolution

variable {fs : FsCtx} {d j : Nat} {path : CString} {tokens : List (List Byte)} {token : List Byte}

theorem Tree.leads_proper (tree : Tree fs) (walk : Walk fs.Edge d tokens j) :
    ∀ token ∈ tokens, token ≠ [] ∧ token.length < a1fsNameMax := by
  induction walk with
  | nil => simp
  | cons head _ ih =>
    obtain ⟨a, member, number, named⟩ := (tree.listed _ head.1).entry_iff.mp head.2
    intro token member
    rcases List.mem_cons.mp member with rfl | member
    · exact ⟨named.2.1, named.2.2.1⟩
    · exact ih token member

theorem Tree.lookup_blank (tree : Tree fs) (steady : Steady fs) (alive : fs.live d = true)
    (dir : sIsdir (fs.itable d).mode = true) (blank : fs.Blank d) (noNul : 0#8 ∉ token) :
    inodeLookup fs d token = .ok (fs.entryNamed (fs.itable d) token) := by
  have readable := tree.readable steady d
  apply inodeLookup_compares (live_iff.mp alive).1 readable
  intro a member
  have slots := FsCtx.Slots.of_listed (tree.listed d dir) blank
  exact slots.strcmp member (readable.entry member) noNul

theorem FsCtx.Listed.entryNamed_iff (listed : fs.Listed d) (noNul : 0#8 ∉ token) (some : token ≠ []) :
    (∃ j : Nat, fs.Entry d token j ∧ fs.entryNamed (fs.itable d) token = j) ∨
      (∀ j, ¬ fs.Entry d token j) ∧ fs.entryNamed (fs.itable d) token < 0 := by
  by_cases found : fs.entryNamed (fs.itable d) token = -1
  · right
    refine ⟨fun j entry => ?_, by omega⟩
    have same := listed.entryNamed_eq some entry
    omega
  · obtain ⟨j, same, entry⟩ := listed.entry_of_entryNamed noNul found
    exact .inl ⟨j, entry, same⟩

theorem Tree.walks (tree : Tree fs) (steady : Steady fs) (leads : fs.Leads tokens d) :
    ∃ par, walkTokens fs (tokens ++ [token]) 0 0 = walkTokens fs [token] par d :=
  walkTokens_returns tree.closed_live tree.root.1 leads (tree.leads_proper leads)
    fun d alive => ⟨(live_iff.mp alive).1, tree.readable steady d⟩

theorem Tree.lookup_returns (tree : Tree fs) (steady : Steady fs) (alive : fs.live d = true)
    (dir : sIsdir (fs.itable d).mode = true) (fits : token.length < a1fsNameMax ∨ fs.AllBlank)
    (noNul : 0#8 ∉ token) : inodeLookup fs d token = .ok (fs.entryNamed (fs.itable d) token) := by
  rcases fits with short | blank
  · exact inodeLookup_returns (live_iff.mp alive).1 (tree.readable steady d) short
  · exact tree.lookup_blank steady alive dir (blank d dir) noNul

theorem Tree.getInodeNum_leads (tree : Tree fs) (steady : Steady fs)
    (fits : (∀ token ∈ strtok path.bytes, token.length < a1fsNameMax) ∨ fs.AllBlank)
    (leads : fs.Leads (strtok path.bytes).dropLast d) (dir : sIsdir (fs.itable d).mode = true) :
    getInodeNum fs path 1 = .ok (d : Int) ∧ ∃ r, getInodeNum fs path 0 = .ok r ∧
      ((∃ j : Nat, fs.Leads (strtok path.bytes) j ∧ r = j) ∨
        (∀ j, ¬ fs.Leads (strtok path.bytes) j) ∧ r < 0) := by
  rcases List.eq_nil_or_concat (strtok path.bytes) with none | ⟨before, last, split⟩
  · rw [none] at leads
    obtain rfl := Walk.nil_iff.mp leads
    rw [getInodeNum, getInodeNum, none]
    exact ⟨rfl, 0, rfl, .inl ⟨0, .nil, rfl⟩⟩
  · have member : last ∈ strtok path.bytes := by simp [split]
    rw [List.concat_eq_append] at split
    rw [split, List.dropLast_concat] at leads
    obtain ⟨par, walked⟩ := tree.walks steady leads
    have look := tree.lookup_returns steady (tree.alive_of_walk leads) dir
      (fits.imp_left fun short => short last member) (token_noNul member)
    have edges (j : Nat) : fs.Leads (before ++ [last]) j ↔ fs.Entry d last j := by
      rw [FsCtx.Leads, Walk.concat_iff]
      constructor
      · rintro ⟨d', leads', edge⟩
        obtain rfl := tree.forest.end_unique leads leads'
        exact edge.2
      · exact fun entry => ⟨d, leads, dir, entry⟩
    have result : walkTokens fs (before ++ [last]) 0 0 =
        .ok ((d : Int), fs.entryNamed (fs.itable d) last) := by
      rw [walked, walkTokens, if_pos (by omega), look, ok_bind, walkTokens]
    rw [getInodeNum, getInodeNum, split, result]
    simp only [edges]
    exact ⟨rfl, _, rfl, (tree.listed d dir).entryNamed_iff (token_noNul member) (mem_strtok member).1⟩

theorem Tree.resolvesPath (tree : Tree fs) (steady : Steady fs)
    (fits : (∀ token ∈ strtok path.bytes, token.length < a1fsNameMax) ∨ fs.AllBlank)
    (leads : fs.Leads (strtok path.bytes).dropLast d) (dir : sIsdir (fs.itable d).mode = true) :
    ResolvesPath fs path := by
  obtain ⟨parent, r, found, target⟩ := tree.getInodeNum_leads steady fits leads dir
  refine ⟨⟨r, found, target⟩, ⟨d, parent, .inl ⟨d, ⟨leads, dir⟩, rfl⟩⟩, fun code stat answer => ?_⟩
  rw [a1fsGetattr] at answer
  split at answer
  · cases answer
  · split at answer
    · cases answer
    · rw [found, ok_bind] at answer
      split at answer
      · cases answer
      · rename_i nonneg
        rw [bind_eq_ok] at answer
        obtain ⟨inode, read, answer⟩ := answer
        obtain ⟨-, rfl⟩ := inodeAt_ok.mp read
        cases answer
        rcases target with ⟨j, leads, rfl⟩ | ⟨-, negative⟩
        · exact ⟨j, leads, rfl, rfl, rfl, rfl⟩
        · exact absurd negative nonneg

end Resolution

/-- In runs of calls that leave the blocks of other inodes alone, paths are resolved as they
    should be exactly when their prefix leads to a directory. -/
theorem path_resolved {fs : FsCtx} (run : a1fs.Reaches Sound fs) (path : CString)
    (fits : (∀ token ∈ strtok path.bytes, token.length < a1fsNameMax) ∨ fs.AllBlank) :
    ResolvesPath fs path ↔
      ∃ d, fs.Leads (strtok path.bytes).dropLast d ∧ sIsdir (fs.itable d).mode = true := by
  obtain ⟨steady, tree⟩ := tree_of_reaches run fun _ _ sound => sound
  constructor
  · rintro ⟨-, ⟨r, found, ⟨d, leads, -⟩ | ⟨-, negative⟩⟩, -⟩
    · exact ⟨d, leads⟩
    · have nonneg := getInodeNum_parent_nonneg found
      omega
  · rintro ⟨d, leads, dir⟩
    exact tree.resolvesPath steady fits leads dir

theorem path_resolved_run : ∃ fs, enteredRun = some fs ∧ ResolvesPath fs pathBC := by
  have walks : ∃ fs ∈ enteredRun, fs.resolve pathB = some 2 ∧ sIsdir (fs.itable 2).mode = true := by
    decide +kernel
  obtain ⟨fs, run, found, dir⟩ := walks
  have reached := runCalls_reaches (.initial device_initial) run
  obtain ⟨-, tree⟩ := tree_of_reaches reached fun _ _ sound => sound
  exact ⟨fs, run, (path_resolved reached pathBC (.inl (by decide))).mpr
    ⟨2, tree.walk_of_resolve found, dir⟩⟩

def pathZA : CString := ⟨[47#8, 122#8, 47#8, 97#8], by decide⟩

def singleRun : Option FsCtx := runCalls Sound quiet 10 device [.create pathA regularMode]

theorem path_resolved_fails : ∃ fs path, a1fs.Reaches Sound fs ∧ path.bytes.head? = some slash ∧
    (∀ token ∈ strtok path.bytes, token.length < a1fsNameMax) ∧ ¬ ResolvesPath fs path := by
  have finds : ∃ fs ∈ singleRun, getInodeNum fs pathZA 0 = .ok 1 ∧
      ∀ a ∈ (fs.itable 0).entries, nameIs fs.data (a + 4) [122#8] = false := by
    decide +kernel
  obtain ⟨fs, run, found, missing⟩ := finds
  refine ⟨fs, pathZA, runCalls_reaches (.initial device_initial) run, rfl, by decide, ?_⟩
  rintro ⟨⟨r, answer, ⟨j, leads, -⟩ | ⟨-, negative⟩⟩, -, -⟩
  · obtain ⟨d, ⟨-, -, a, member, -, named⟩, -⟩ := Walk.cons_iff.mp leads
    cases named.symm.trans (missing a member)
  · rw [found] at answer
    cases answer
    cases negative

end ExtentFs
