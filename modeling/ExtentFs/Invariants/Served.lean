import ExtentFs.Effects.Times
import ExtentFs.Invariants.Names
import ExtentFs.Invariants.Requests

namespace ExtentFs

open Base

/-- The call that a request makes, if it makes one, leaves the blocks of other inodes alone. -/
def Tended (fs : FsCtx) (x : Exchange) : Prop := ∀ event ∈ x.event, Sound fs event

instance (fs : FsCtx) (x : Exchange) : Decidable (Tended fs x) := Option.decidableForallMem _

def Event.exchange (event : Event) : Exchange := ⟨.change event.call, event.env, .status event.result⟩

section Times

variable {fs fs' : FsCtx} {i : Nat} {t : Timespec}

theorem measured_timeless : (fs.timeless.itable i).Measured ↔ (fs.itable i).Measured :=
  ⟨fun ⟨low, fits, blank, counted, near⟩ => ⟨low, fits, blank, counted, near⟩,
    fun ⟨low, fits, blank, counted, near⟩ => ⟨low, fits, blank, counted, near⟩⟩

theorem listed_timeless : fs.timeless.Listed i ↔ fs.Listed i :=
  ⟨fun ⟨number, named, distinct, ordered⟩ => ⟨number, named, distinct, ordered⟩,
    fun ⟨number, named, distinct, ordered⟩ => ⟨number, named, distinct, ordered⟩⟩

theorem tree_timeless : Tree fs.timeless ↔ Tree fs := by
  constructor
  · rintro ⟨exclusive, inside, dead, root, files, listed, linked, once, counted⟩
    exact ⟨exclusive, inside, dead, root, fun i file => measured_timeless.mp (files i file),
      fun d dir => listed_timeless.mp (listed d dir), linked, once, counted⟩
  · rintro ⟨exclusive, inside, dead, root, files, listed, linked, once, counted⟩
    exact ⟨exclusive, inside, dead, root, fun i file => measured_timeless.mpr (files i file),
      fun d dir => listed_timeless.mpr (listed d dir), linked, once, counted⟩

theorem Tree.setTime (tree : Tree fs) : Tree (fs.setInode i { fs.itable i with iMtime := t }) := by
  rw [← tree_timeless, timeless_setInode, tree_timeless]
  exact tree

end Times

section Runs

variable {fs fs' : FsCtx} {x : Exchange} {guard : FsCtx → Exchange → Prop}

/-- What a request does to a tree: nothing, it sets a time, or it makes a call with its effect. -/
theorem Tree.served (tree : Tree fs) (steady : Steady fs) (tended : Tended fs x)
    (step : driver.Step fs x fs') : fs' = fs ∨
      (∃ i t, fs' = fs.setInode i { fs.itable i with iMtime := t }) ∨
      ∃ event ∈ x.event, a1fs.Step fs event fs' ∧ fs.TreeEffect fs' event := by
  obtain ⟨fuel, served⟩ := step
  rcases serve_cases served with same | ⟨path, times, i, -, result⟩ | ⟨call, r, asked, answered, returned⟩
  · exact .inl same
  · exact .inr (.inl ⟨i, times.2, result⟩)
  · have made : x.event = some ⟨call, x.env, r⟩ := by
      rw [Exchange.event, asked, answered]
    have step : a1fs.Step fs ⟨call, x.env, r⟩ fs' := ⟨fuel, returned⟩
    exact .inr (.inr ⟨_, made, step, tree.effect steady (tended _ made) step⟩)

theorem Event.serves {event : Event} (step : a1fs.Step fs event fs') : driver.Step fs event.exchange fs' := by
  obtain ⟨fuel, returned⟩ := step
  refine ⟨fuel, ?_⟩
  change (event.call.exec event.env fuel fs >>= _) = _
  rw [returned]
  rfl

/-- The calls make a run of the driver. -/
theorem driver_of_calls {guard : FsCtx → Event → Prop} (run : a1fs.Reaches guard fs) :
    driver.Reaches (fun fs x => ∀ event ∈ x.event, guard fs event) fs := by
  induction run with
  | initial start => exact .initial start
  | @step s t event _ allowed step ih =>
    refine .step ih ?_ (Event.serves step)
    rintro made same
    cases same
    exact allowed

theorem tree_of_driver (run : driver.Reaches guard fs) (tended : ∀ fs x, guard fs x → Tended fs x) :
    Steady fs ∧ Tree fs := by
  have steady : ∀ t, driver.Reaches guard t → Steady t := fun t run => steady_of_driver run
  refine ⟨steady fs run, run.relative steady Tree (fun s start => ?_) ?_⟩
  · obtain ⟨blocks, nInodes, d, now, g, rfl⟩ := Initial.shape start
    exact g.tree
  · intro s x t steady tree allowed step
    rcases tree.served steady (tended s x allowed) step with same | ⟨i, time, result⟩ | ⟨event, made, step, -⟩
    · exact same ▸ tree
    · exact result ▸ tree.setTime
    · exact tree.step steady (tended s x allowed event made) step

/-- A run rule over what a tended request does to a tree. -/
theorem invariant_of_tended {P : FsCtx → Prop} (run : driver.Reaches guard fs)
    (tended : ∀ fs x, guard fs x → Tended fs x) (base : ∀ fs, Initial fs → P fs)
    (times : ∀ {fs i t}, P fs → P (fs.setInode i { fs.itable i with iMtime := t }))
    (calls : ∀ {fs x event fs'}, Steady fs → Tree fs → P fs → guard fs x → event ∈ x.event →
      a1fs.Step fs event fs' → fs.TreeEffect fs' event → P fs') : P fs := by
  refine run.relative (fun t run => tree_of_driver run tended) P base ?_
  intro s x t both holds allowed step
  rcases both.2.served both.1 (tended s x allowed) step with same | ⟨i, time, result⟩ |
    ⟨event, made, step, effect⟩
  · exact same ▸ holds
  · exact result ▸ times holds
  · exact calls both.1 both.2 holds allowed made step effect

end Runs

section Leads

variable {fs fs' : FsCtx} {i j : Nat} {t : Timespec} {event : Event} {tokens : List (List Byte)}

theorem edge_setTime {d : Nat} {name : List Byte} :
    (fs.setInode i { fs.itable i with iMtime := t }).Edge d name j ↔ fs.Edge d name j := by
  have same : (fs.setInode i { fs.itable i with iMtime := t }).timeless.Edge d name j ↔
      fs.timeless.Edge d name j := by
    rw [timeless_setInode]
  exact same

theorem leads_setTime : (fs.setInode i { fs.itable i with iMtime := t }).Leads tokens j ↔ fs.Leads tokens j :=
  Tree.leads_same fun _ _ _ => edge_setTime

theorem Tree.leads_child (tree : Tree fs) (leads : fs.Leads tokens i) {name : List Byte} :
    fs.Leads (tokens ++ [name]) j ↔ fs.Edge i name j := by
  rw [FsCtx.Leads, Walk.concat_iff]
  constructor
  · rintro ⟨q, before, edge⟩
    obtain rfl := tree.forest.end_unique before leads
    exact edge
  · exact fun edge => ⟨i, leads, edge⟩

theorem Documented.shaped {call : Call} (documented : Documented fs call) : WellShaped call.path := by
  cases call with
  | create path mode => exact documented.1
  | mkdir path mode => exact documented.1.1
  | unlink path | rmdir path | truncate path size => exact documented.1
  | write path buf offset => exact documented.1.1

/-- A call that does not name a path leaves it leading where it led. -/
theorem Tree.leads_kept (tree : Tree fs) (effect : fs.TreeEffect fs' event)
    (shaped : WellShaped event.call.path) (leads : fs.Leads tokens j) (other : tokens ≠ event.call.tokens) :
    fs'.Leads tokens j := by
  cases effect with
  | refused new same => exact same ▸ leads
  | leaks new creatable leaks =>
    rw [leaks.result]
    exact (Tree.leads_same (tree.takeInode_edge leaks.clear _ _)).mpr leads
  | makes new creatable makes => exact ((makes.adds tree).paths tokens j).mpr (.inl leads)
  | @unlinks path env i p addr found walk edge removed =>
    have flipped : Tree (fs.flipBlocks (fs.itable i).blocks 0) := tree.flipBlocks
    have split := tree.leads_split shaped (tree.walk_of_resolve found) edge
    exact ((removed.deletes flipped walk split).paths tokens j).mpr ⟨leads, other⟩
  | stops found stops result =>
    rw [result]
    exact leads
  | notEmpty same => exact same ▸ leads
  | removes found walk edge removed =>
    have split := tree.leads_split shaped (tree.walk_of_resolve found) edge
    exact ((removed.deletes tree walk split).paths tokens j).mpr ⟨leads, other⟩
  | truncates found regular alive small truncated changed =>
    exact (Tree.leads_same (changed.edge tree regular)).mpr leads
  | writes found regular alive wrote changed =>
    exact (Tree.leads_same (changed.edge tree regular)).mpr leads

end Leads

end ExtentFs
