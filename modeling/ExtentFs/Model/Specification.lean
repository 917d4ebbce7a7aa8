import ExtentFs.Base.Files
import ExtentFs.Base.Spread
import ExtentFs.Model.Requests

namespace ExtentFs

open Base

/-- What the users of the file system see of it. -/
abbrev Visible := Files (List Byte) (BitVec 32) Byte

/-- The attributes are those of a node. -/
def Stat.Describes (st : Stat) : Node (BitVec 32) Byte → Prop
  | .directory mode => st.stMode = mode
  | .file mode contents => st.stMode = mode ∧ st.stSize = contents.length

/-- How a request may be answered by a file system that is nothing but a tree of directories and byte arrays, and
    what becomes of the tree. A call that fails leaves it alone, and a directory is not said to have entries when
    it has none. -/
inductive Visible.Step (v : Visible) : Exchange → Visible → Prop
  | statfs {path : CString} {env : Env} {st : Statvfs} : Step v ⟨.statfs path, env, .statfs st⟩ v
  | found {path : CString} {env : Env} {node : Node (BitVec 32) Byte} {st : Stat}
      (named : v.node (strtok path.bytes) = some node) (describes : st.Describes node) :
      Step v ⟨.getattr path, env, .getattr 0 (some st)⟩ v
  | absent {path : CString} {env : Env} (none : v.node (strtok path.bytes) = none) :
      Step v ⟨.getattr path, env, .getattr (-eNoEnt) Option.none⟩ v
  | listed {path : CString} {env : Env} {names : List (List Byte)}
      (directory : v.IsDirectory (strtok path.bytes)) (lists : v.Lists (strtok path.bytes) names) :
      Step v ⟨.readdir path, env, .readdir 0 (names ++ [[46#8], [46#8, 46#8]])⟩ v
  | read {path : CString} {env : Env} {size offset : Nat} {mode : BitVec 32} {contents bytes : List Byte}
      (file : v.node (strtok path.bytes) = some (.file mode contents))
      (asked : bytes = (contents.drop offset).take size) :
      Step v ⟨.read path size offset, env, .read bytes.length fun x => bytes[x]?⟩ v
  | stamped {path : CString} {env : Env} {times : Timespec × Timespec}
      (named : v.node (strtok path.bytes) ≠ none) : Step v ⟨.utimens path times, env, .status 0⟩ v
  | unstamped {path : CString} {env : Env} {times : Timespec × Timespec} {r : Int}
      (none : v.node (strtok path.bytes) = none) (negative : r < 0) :
      Step v ⟨.utimens path times, env, .status r⟩ v
  | failed {call : Call} {env : Env} {r : Int} (negative : r < 0)
      (reason : ∀ path, call = .rmdir path → r = -eNotEmpty ∧ ∃ name, v.node (call.tokens ++ [name]) ≠ none) :
      Step v ⟨.change call, env, .status r⟩ v
  | created {path : CString} {env : Env} {mode : BitVec 32} {parent : List (List Byte)} {name : List Byte}
      (split : strtok path.bytes = parent ++ [name]) (directory : v.IsDirectory parent)
      (free : v.node (parent ++ [name]) = none) :
      Step v ⟨.change (.create path mode), env, .status 0⟩ (Files.make (.file mode []) directory free)
  | madeDirectory {path : CString} {env : Env} {mode : BitVec 32} {parent : List (List Byte)} {name : List Byte}
      (split : strtok path.bytes = parent ++ [name]) (directory : v.IsDirectory parent)
      (free : v.node (parent ++ [name]) = none) :
      Step v ⟨.change (.mkdir path mode), env, .status 0⟩ (Files.make (.directory (mode ||| sIfdir)) directory free)
  | unlinked {path : CString} {env : Env} {parent : List (List Byte)} {name : List Byte} {mode : BitVec 32}
      {contents : List Byte} (split : strtok path.bytes = parent ++ [name])
      (file : v.node (parent ++ [name]) = some (.file mode contents)) :
      Step v ⟨.change (.unlink path), env, .status 0⟩ (Files.remove (Files.childless_of_file file))
  | removedDirectory {path : CString} {env : Env} {parent : List (List Byte)} {name : List Byte}
      (split : strtok path.bytes = parent ++ [name]) (directory : v.IsDirectory (parent ++ [name]))
      (childless : ∀ entry, v.node (parent ++ [name] ++ [entry]) = none) :
      Step v ⟨.change (.rmdir path), env, .status 0⟩ (Files.remove childless)
  | truncated {path : CString} {env : Env} {size : Nat} {mode : BitVec 32} {contents : List Byte}
      (file : v.node (strtok path.bytes) = some (.file mode contents)) :
      Step v ⟨.change (.truncate path size), env, .status 0⟩ (Files.rewrite (resize 0 contents size) file)
  | written {path : CString} {env : Env} {buf : List Byte} {offset : Nat} {mode : BitVec 32} {contents : List Byte}
      (file : v.node (strtok path.bytes) = some (.file mode contents)) :
      Step v ⟨.change (.write path buf offset), env, .status buf.length⟩
        (Files.rewrite (overwrite 0 contents offset buf) file)

/-- The file system as it is meant: a root directory, and what the requests make of it. -/
def specification : TransitionSystem Visible Exchange where
  Initial v := v = Files.empty (sIfdir ||| 0o777#32)
  Step := Visible.Step

/-- What the paths name. -/
abbrev Nodes := List (List Byte) → Option (Node (BitVec 32) Byte)

def Nodes.change (nodes : Nodes) (tokens : List (List Byte)) (f : List Byte → List Byte) : Nodes :=
  Function.update nodes tokens ((nodes tokens).map fun
    | .directory mode => .directory mode
    | .file mode contents => .file mode (f contents))

/-- What a call that succeeds makes of the nodes. -/
def Nodes.apply (nodes : Nodes) : Call → Nodes
  | .create path mode => Function.update nodes (strtok path.bytes) (some (.file mode []))
  | .mkdir path mode => Function.update nodes (strtok path.bytes) (some (.directory (mode ||| sIfdir)))
  | .unlink path | .rmdir path => Function.update nodes (strtok path.bytes) none
  | .truncate path size => nodes.change (strtok path.bytes) fun contents => resize 0 contents size.toNat
  | .write path buf offset => nodes.change (strtok path.bytes) fun contents => overwrite 0 contents offset buf

def Nodes.after (nodes : Nodes) (outcome : Call × Int) : Nodes :=
  if outcome.2 < 0 then nodes else nodes.apply outcome.1

def Exchange.outcome (x : Exchange) : Option (Call × Int) := x.event.map fun event => (event.call, event.result)

/-- The calls among the requests, with their results. -/
def outcomes (exchanges : List Exchange) : List (Call × Int) := exchanges.filterMap Exchange.outcome

section Nodes

variable {v v' : Visible} {x : Exchange} {exchanges : List Exchange}

theorem Nodes.after_success {nodes : Nodes} {call : Call} {r : Int} (success : ¬ r < 0) :
    nodes.after (call, r) = nodes.apply call := if_neg success

theorem Nodes.change_file {tokens : List (List Byte)} {mode : BitVec 32} {contents : List Byte}
    (file : v.node tokens = some (.file mode contents)) (f : List Byte → List Byte) :
    Nodes.change v.node tokens f = (Files.rewrite (f contents) file).node := by
  rw [Nodes.change, file]
  rfl

/-- Only calls that succeed change anything, and what they leave is determined. -/
theorem Visible.Step.node (step : Visible.Step v x v') :
    v'.node = x.outcome.elim v.node (Nodes.after v.node) := by
  cases step with
  | statfs | found | absent | listed | read | stamped | unstamped => rfl
  | failed negative => exact (if_pos negative).symm
  | created split | madeDirectory split | unlinked split | removedDirectory split =>
    change _ = Nodes.after v.node (_, 0)
    rw [Nodes.after_success (lt_irrefl 0), Nodes.apply, split]
    rfl
  | truncated file =>
    change _ = Nodes.after v.node (_, 0)
    rw [Nodes.after_success (lt_irrefl 0), Nodes.apply, Nodes.change_file file, Int.toNat_natCast]
  | @written path env buf offset mode contents file =>
    change _ = Nodes.after v.node (_, (buf.length : Int))
    rw [Nodes.after_success (by omega), Nodes.apply, Nodes.change_file file]

theorem nodes_of_trace {guard : Visible → Exchange → Prop} (run : specification.Trace guard exchanges v) :
    v.node = (outcomes exchanges).foldl Nodes.after (Files.empty (sIfdir ||| 0o777#32)).node := by
  induction run with
  | initial start => rw [start]; rfl
  | @step labels s t x _ _ step ih =>
    rw [step.node, outcomes, List.filterMap_append, List.foldl_append, ← outcomes, ← ih]
    cases outcome : x.outcome with
    | none => simp [outcome]
    | some event => simp [outcome]

end Nodes

end ExtentFs
