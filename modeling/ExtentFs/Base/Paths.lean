import Mathlib.Data.List.Induction

namespace Base

variable {ι α : Type*}

/-- A path follows edges with its components as labels. -/
inductive Walk (edge : ι → α → ι → Prop) : ι → List α → ι → Prop
  | nil {i : ι} : Walk edge i [] i
  | cons {i j k : ι} {a : α} {path : List α} (head : edge i a j) (tail : Walk edge j path k) :
      Walk edge i (a :: path) k

/-- Every node but the root is the target of at most one edge, the root of none. -/
structure Forest (edge : ι → α → ι → Prop) (root : ι) : Prop where
  target_unique : ∀ {i j k a}, edge i a j → edge i a k → j = k
  source_unique : ∀ {i j k a b}, edge i a k → edge j b k → i = j ∧ a = b
  root_source : ∀ {i a}, ¬ edge i a root

namespace Walk

variable {edge edge' : ι → α → ι → Prop} {i j k : ι} {a : α} {path path' : List α}

theorem nil_iff : Walk edge i [] k ↔ k = i := by
  constructor
  · intro walk
    cases walk
    rfl
  · rintro rfl
    exact .nil

theorem cons_iff : Walk edge i (a :: path) k ↔ ∃ j, edge i a j ∧ Walk edge j path k := by
  constructor
  · intro walk
    cases walk with
    | cons head tail => exact ⟨_, head, tail⟩
  · rintro ⟨j, head, tail⟩
    exact .cons head tail

theorem append_iff : Walk edge i (path ++ path') k ↔
    ∃ j, Walk edge i path j ∧ Walk edge j path' k := by
  induction path generalizing i with
  | nil =>
    rw [List.nil_append]
    constructor
    · intro walk
      exact ⟨i, .nil, walk⟩
    · rintro ⟨j, first, rest⟩
      obtain rfl := nil_iff.mp first
      exact rest
  | cons a path ih =>
    rw [List.cons_append, cons_iff]
    constructor
    · rintro ⟨m, head, tail⟩
      obtain ⟨j, first, rest⟩ := ih.mp tail
      exact ⟨j, .cons head first, rest⟩
    · rintro ⟨j, first, rest⟩
      obtain ⟨m, head, tail⟩ := cons_iff.mp first
      exact ⟨m, head, ih.mpr ⟨j, tail, rest⟩⟩

theorem concat_iff : Walk edge i (path ++ [a]) k ↔ ∃ j, Walk edge i path j ∧ edge j a k := by
  rw [append_iff]
  constructor
  · rintro ⟨j, first, rest⟩
    obtain ⟨m, head, tail⟩ := cons_iff.mp rest
    obtain rfl := nil_iff.mp tail
    exact ⟨j, first, head⟩
  · rintro ⟨j, first, head⟩
    exact ⟨j, first, .cons head .nil⟩

/-- A walk stays one when its edges between nodes of a kind do, its end is of the kind and every
    source of an edge is. -/
theorem imp {P : ι → Prop} (walk : Walk edge i path k) (last : P k)
    (sources : ∀ i a j, edge i a j → P i)
    (keeps : ∀ i a j, a ∈ path → edge i a j → P j → edge' i a j) : Walk edge' i path k := by
  induction walk with
  | nil => exact .nil
  | @cons i j k a path head tail ih =>
    have target : P j := by
      cases tail with
      | nil => exact last
      | cons next _ => exact sources _ _ _ next
    apply Walk.cons (keeps i a j (by simp) head target)
    exact ih last fun i b j member edge => keeps i b j (by simp [member]) edge

theorem mono (walk : Walk edge i path k) (keeps : ∀ i a j, edge i a j → edge' i a j) :
    Walk edge' i path k := by
  induction walk with
  | nil => exact .nil
  | cons head _ ih => exact .cons (keeps _ _ _ head) ih

/-- What holds of the start and passes along edges holds of every node on the way. -/
theorem invariant {P : ι → Prop} (walk : Walk edge i path k) (start : P i)
    (passes : ∀ i a j, edge i a j → P i → P j) : P k := by
  induction walk with
  | nil => exact start
  | cons head _ ih => exact ih (passes _ _ _ head start)

end Walk

namespace Forest

variable {edge edge' : ι → α → ι → Prop} {root i j k d : ι} {a t : α} {path path' : List α}

theorem end_unique (forest : Forest edge root) (first : Walk edge i path j)
    (second : Walk edge i path k) : j = k := by
  induction first with
  | nil =>
    cases second
    rfl
  | cons head _ ih =>
    cases second with
    | cons head' tail' =>
      obtain rfl := forest.target_unique head head'
      exact ih tail'

theorem path_unique (forest : Forest edge root) (first : Walk edge root path k)
    (second : Walk edge root path' k) : path = path' := by
  induction path using List.reverseRecOn generalizing path' k with
  | nil =>
    obtain rfl := Walk.nil_iff.mp first
    rcases List.eq_nil_or_concat path' with rfl | ⟨rest, b, rfl⟩
    · rfl
    · rw [List.concat_eq_append, Walk.concat_iff] at second
      obtain ⟨j, -, last⟩ := second
      exact absurd last forest.root_source
  | append_singleton path a ih =>
    obtain ⟨i, before, last⟩ := Walk.concat_iff.mp first
    rcases List.eq_nil_or_concat path' with rfl | ⟨rest, b, rfl⟩
    · obtain rfl := Walk.nil_iff.mp second
      exact absurd last forest.root_source
    · rw [List.concat_eq_append] at second ⊢
      obtain ⟨j, before', last'⟩ := Walk.concat_iff.mp second
      obtain ⟨rfl, rfl⟩ := forest.source_unique last last'
      rw [ih before before']

/-- A new edge to a node without edges adds one path. -/
theorem add (forest : Forest edge root) (parent : Walk edge root path d)
    (edges : ∀ i a k, edge' i a k ↔ edge i a k ∨ (i = d ∧ a = t ∧ k = j))
    (isolated : ∀ a k, ¬ edge' j a k) {whole : List α} :
    Walk edge' root whole k ↔ Walk edge root whole k ∨ (whole = path ++ [t] ∧ k = j) := by
  have keeps (i : ι) (a : α) (k : ι) (old : edge i a k) : edge' i a k := (edges i a k).mpr (.inl old)
  constructor
  · intro walk
    induction whole using List.reverseRecOn generalizing k with
    | nil =>
      obtain rfl := Walk.nil_iff.mp walk
      exact .inl .nil
    | append_singleton before b ih =>
      obtain ⟨i, first, last⟩ := Walk.concat_iff.mp walk
      rcases ih first with old | ⟨-, rfl⟩
      · rcases (edges i b k).mp last with same | ⟨rfl, rfl, rfl⟩
        · exact .inl (Walk.concat_iff.mpr ⟨i, old, same⟩)
        · exact .inr ⟨by rw [forest.path_unique old parent], rfl⟩
      · exact absurd last (isolated b k)
  · rintro (walk | ⟨rfl, rfl⟩)
    · exact walk.mono keeps
    · exact Walk.concat_iff.mpr ⟨d, parent.mono keeps, (edges d t k).mpr (.inr ⟨rfl, rfl, rfl⟩)⟩

theorem remove (forest : Forest edge root) (parent : Walk edge root path d) (old : edge d t j)
    (edges : ∀ i a k, edge' i a k ↔ edge i a k ∧ ¬(i = d ∧ a = t ∧ k = j))
    (isolated : ∀ a k, ¬ edge j a k) {whole : List α} :
    Walk edge' root whole k ↔ Walk edge root whole k ∧ whole ≠ path ++ [t] := by
  constructor
  · intro walk
    have before := walk.mono fun i a k new => ((edges i a k).mp new).1
    refine ⟨before, ?_⟩
    rintro rfl
    obtain ⟨i, first, last⟩ := Walk.concat_iff.mp walk
    obtain ⟨last, other⟩ := (edges i t k).mp last
    obtain rfl := forest.end_unique (first.mono fun i a k new => ((edges i a k).mp new).1) parent
    exact other ⟨rfl, rfl, forest.target_unique last old⟩
  · rintro ⟨walk, differ⟩
    induction whole using List.reverseRecOn generalizing k with
    | nil =>
      obtain rfl := Walk.nil_iff.mp walk
      exact .nil
    | append_singleton before b ih =>
      obtain ⟨i, first, last⟩ := Walk.concat_iff.mp walk
      have shorter : before ≠ path ++ [t] := by
        rintro rfl
        obtain ⟨m, first', last'⟩ := Walk.concat_iff.mp first
        obtain rfl := forest.end_unique first' parent
        obtain rfl := forest.target_unique last' old
        exact isolated b k last
      refine Walk.concat_iff.mpr ⟨i, ih first shorter, (edges i b k).mpr ⟨last, ?_⟩⟩
      rintro ⟨rfl, rfl, rfl⟩
      rw [forest.path_unique first parent] at differ
      exact differ rfl

end Forest

end Base
