import ExtentFs.Effects.Entries
import ExtentFs.Effects.Layout
import ExtentFs.Effects.Walks

namespace ExtentFs

open Base

/-- An entry that is made for a path goes to a directory in which every walk that comes to it looks for the
    name. The walk is made when the new inode has been taken. -/
def AddsWhereLooked (fs : FsCtx) (path : CString) : Prop :=
  ∀ env mode noParent fs' r, newEntry env fs path mode noParent = .ok (fs', r) → fs'.data = fs.data ∨
    ∃ (ino p : Nat) (added : Int), getInodeNum (fs.takeInode ino mode env.now) path 1 = .ok (p : Int) ∧
      addDentry (fs.takeInode ino mode env.now) p ino (strrchr path.bytes) env.now = .ok (fs', added) ∧
      ∀ later, getInodeNum later path 1 = .ok (p : Int) →
        getInodeNum later path 0 = inodeLookup later p (strrchr path.bytes)

section Split

variable {fs : FsCtx} {path dir : CString} {tokens : List (List Byte)} {name : List Byte} {par cur p : Int}

/-- The last lookup of a walk is one in the directory that the tokens before it lead to, or in the last
    directory that was found. -/
theorem walkTokens_concat :
    walkTokens fs (tokens ++ [name]) par cur = (walkTokens fs tokens par cur >>= fun r =>
      inodeLookup fs (if r.2 ≠ -1 then r.2 else r.1) name >>= fun found =>
        .ok (if r.2 ≠ -1 then r.2 else r.1, found)) := by
  induction tokens generalizing par cur with
  | nil => rfl
  | cons token tokens ih =>
    rw [List.cons_append, walkTokens, walkTokens, bind_assoc]
    congr 1
    funext next
    exact ih

theorem getInodeNum_concat {tog : Nat} (last : strtok path.bytes = tokens ++ [name]) :
    getInodeNum fs path tog = (walkTokens fs tokens 0 0 >>= fun r =>
      inodeLookup fs (if r.2 ≠ -1 then r.2 else r.1) name >>= fun found =>
        .ok (if tog = 1 then (if r.2 ≠ -1 then r.2 else r.1) else found)) := by
  rw [getInodeNum, last, walkTokens_concat, bind_assoc]
  congr 1
  funext r
  rw [bind_assoc]
  rfl

/-- The walk of a path looks up its last token in the directory that the walk for the parent gives. -/
theorem getInodeNum_lookup (absolute : path.bytes.head? = some slash) (noTrailing : path.bytes.getLast? ≠ some slash) :
    getInodeNum fs path 0 = (getInodeNum fs path 1 >>= fun p => inodeLookup fs p (strrchr path.bytes)) := by
  obtain ⟨before, -, tokens⟩ := strtok_split (List.mem_of_mem_head? absolute) noTrailing
  rw [getInodeNum_concat tokens, getInodeNum_concat tokens, bind_assoc]
  congr 1
  funext r
  rw [bind_assoc]
  cases look : inodeLookup fs (if r.2 ≠ -1 then r.2 else r.1) (strrchr path.bytes) with
  | error fault => rfl
  | ok found =>
    show Except.ok found = inodeLookup fs (if r.2 ≠ -1 then r.2 else r.1) (strrchr path.bytes)
    exact look.symm

theorem newEntry_adds (absolute : path.bytes.head? = some slash) (noTrailing : path.bytes.getLast? ≠ some slash) :
    AddsWhereLooked fs path := by
  intro env mode noParent fs' r made
  rcases newEntry_ok made with ⟨-, rfl, -⟩ | ⟨ino, -, taken, rfl, ⟨-, rfl, -⟩ | ⟨p, walk, -, added, add, -⟩⟩
  · exact .inl rfl
  · exact .inl rfl
  · refine .inr ⟨ino, p, added, walk, add, fun later again => ?_⟩
    rw [getInodeNum_lookup absolute noTrailing, again]
    rfl

end Split

/-- The callers take the name behind the last slash of a path, the walk takes the last token, and both look it
    up in one directory; a parent that the walk finds for a path is what it finds for the path of the parent. A
    new entry goes where the path is looked up. -/
theorem splittings_agree {fs : FsCtx} {path : CString} (absolute : path.bytes.head? = some slash)
    (noTrailing : path.bytes.getLast? ≠ some slash) :
    (strtok path.bytes).getLast? = some (strrchr path.bytes) ∧
      getInodeNum fs path 0 = (getInodeNum fs path 1 >>= fun p => inodeLookup fs p (strrchr path.bytes)) ∧
      (∀ (dir : CString) (name : List Byte), slash ∉ name → path.bytes = dir.bytes ++ slash :: name →
        ∀ p, getInodeNum fs dir 0 = .ok p → p ≠ -1 →
          getInodeNum fs path 1 = (inodeLookup fs p name >>= fun _ => .ok p)) ∧
      AddsWhereLooked fs path := by
  refine ⟨?_, getInodeNum_lookup absolute noTrailing, ?_, newEntry_adds absolute noTrailing⟩
  · obtain ⟨before, -, tokens⟩ := strtok_split (List.mem_of_mem_head? absolute) noTrailing
    rw [tokens, List.getLast?_concat]
  · intro dir name plain whole p found some
    have proper : name ≠ [] := by
      rintro rfl
      rw [whole] at noTrailing
      simp at noTrailing
    have last : strtok path.bytes = strtok dir.bytes ++ [name] := by rw [whole, strtok_last plain proper]
    rw [getInodeNum, bind_eq_ok] at found
    obtain ⟨⟨par, cur⟩, walked, found⟩ := found
    obtain rfl : cur = p := Except.ok.inj found
    rw [getInodeNum_concat last, walked, ok_bind, if_pos some]
    rfl

/-- The path `//b///c`. -/
def spacedPath : CString := ⟨[47#8, 47#8, 98#8, 47#8, 47#8, 47#8, 99#8], by decide⟩

/-- The path `//b//`. -/
def spacedDir : CString := ⟨[47#8, 47#8, 98#8, 47#8, 47#8], by decide⟩

def nestedRun : Option FsCtx :=
  runCalls (fun _ _ => True) quiet 10 device [.create pathA regularMode, .mkdir pathB 0, .create spacedPath regularMode]

theorem splittings_agree_device : ∃ fs, nestedRun = some fs ∧
    (strtok spacedPath.bytes).getLast? = some (strrchr spacedPath.bytes) ∧
    getInodeNum fs spacedPath 0 = (getInodeNum fs spacedPath 1 >>= fun p => inodeLookup fs p [99#8]) ∧
    getInodeNum fs spacedPath 1 = (inodeLookup fs 2 [99#8] >>= fun _ => .ok 2) ∧
    inodeLookup fs 2 [99#8] = .ok 3 ∧ AddsWhereLooked fs spacedPath := by
  have returns : ∃ fs ∈ nestedRun, getInodeNum fs spacedDir 0 = .ok 2 ∧ inodeLookup fs 2 [99#8] = .ok 3 := by
    decide +kernel
  obtain ⟨fs, run, dir, look⟩ := returns
  have agree := @splittings_agree fs spacedPath (by decide) (by decide)
  obtain ⟨last, lookup, below, adds⟩ := agree
  exact ⟨fs, run, last, lookup, below spacedDir [99#8] (by decide) (by decide) 2 dir (by decide), look, adds⟩

end ExtentFs
