import Mathlib.Logic.Function.Basic

namespace Base

/-- A directory, or a file with its bytes, each with a mode. -/
inductive Node (μ β : Type*) where
  | directory (mode : μ)
  | file (mode : μ) (contents : List β)

/-- A file system as its users see it: what the paths name. Everything is in a directory, up to the root. -/
structure Files (α μ β : Type*) where
  node : List α → Option (Node μ β)
  root : ∃ mode, node [] = some (.directory mode)
  nested : ∀ path name, node (path ++ [name]) ≠ none → ∃ mode, node path = some (.directory mode)

namespace Files

variable {α μ β : Type*} {files : Files α μ β} {path other : List α} {name : α} {mode : μ} {contents : List β}

variable (files) in
def IsDirectory (path : List α) : Prop := ∃ mode, files.node path = some (.directory mode)

variable (files) in
/-- The names are those of a directory's entries, each listed once. -/
def Lists (path names : List α) : Prop :=
  names.Nodup ∧ ∀ name, name ∈ names ↔ files.node (path ++ [name]) ≠ none

/-- A root directory with nothing in it. -/
def empty (mode : μ) : Files α μ β where
  node path := if path.isEmpty then some (.directory mode) else none
  root := ⟨mode, rfl⟩
  nested path name named := by simp at named

theorem IsDirectory.ne_file (directory : files.IsDirectory other)
    (file : files.node path = some (.file mode contents)) : other ≠ path := by
  rintro rfl
  obtain ⟨mode', same⟩ := directory
  rw [file] at same
  cases same

/-- There is nothing in a file. -/
theorem childless_of_file (file : files.node path = some (.file mode contents)) (entry : α) :
    files.node (path ++ [entry]) = none := by
  by_contra named
  have directory : files.IsDirectory path := files.nested path entry named
  exact directory.ne_file file rfl

variable [DecidableEq α]

theorem IsDirectory.update {node : Option (Node μ β)} (directory : files.IsDirectory other)
    (differ : other ≠ path) : ∃ mode, Function.update files.node path node other = some (.directory mode) := by
  obtain ⟨mode, same⟩ := directory
  exact ⟨mode, by rw [Function.update_of_ne differ, same]⟩

def make (node : Node μ β) (directory : files.IsDirectory path) (free : files.node (path ++ [name]) = none) :
    Files α μ β where
  node := Function.update files.node (path ++ [name]) (some node)
  root := IsDirectory.update files.root (by simp)
  nested := by
    intro other entry named
    have above : files.IsDirectory other := by
      by_cases own : other ++ [entry] = path ++ [name]
      · obtain ⟨rfl, -⟩ := List.append_inj' own rfl
        exact directory
      · rw [Function.update_of_ne own] at named
        exact files.nested other entry named
    apply above.update
    rintro rfl
    obtain ⟨mode, same⟩ := above
    rw [free] at same
    cases same

def remove (childless : ∀ entry, files.node (path ++ [name] ++ [entry]) = none) : Files α μ β where
  node := Function.update files.node (path ++ [name]) none
  root := IsDirectory.update files.root (by simp)
  nested := by
    intro other entry named
    have differ : other ++ [entry] ≠ path ++ [name] := by
      intro own
      rw [own, Function.update_self] at named
      exact named rfl
    rw [Function.update_of_ne differ] at named
    apply IsDirectory.update (files.nested other entry named)
    rintro rfl
    exact named (childless entry)

def rewrite (changed : List β) (file : files.node path = some (.file mode contents)) : Files α μ β where
  node := Function.update files.node path (some (.file mode changed))
  root := IsDirectory.update files.root (IsDirectory.ne_file files.root file)
  nested := by
    intro other entry named
    have old : files.node (other ++ [entry]) ≠ none := by
      by_cases own : other ++ [entry] = path
      · rw [own, file]
        exact Option.some_ne_none _
      · rwa [Function.update_of_ne own] at named
    have above : files.IsDirectory other := files.nested other entry old
    exact above.update (above.ne_file file)

theorem make_node {node : Node μ β} {directory : files.IsDirectory path}
    {free : files.node (path ++ [name]) = none} :
    (make node directory free).node other = if other = path ++ [name] then some node else files.node other :=
  Function.update_apply ..

theorem remove_node {childless : ∀ entry, files.node (path ++ [name] ++ [entry]) = none} :
    (remove childless).node other = if other = path ++ [name] then none else files.node other :=
  Function.update_apply ..

theorem rewrite_node {changed : List β} {file : files.node path = some (.file mode contents)} :
    (rewrite changed file).node other = if other = path then some (.file mode changed) else files.node other :=
  Function.update_apply ..

end Files

end Base
