import SparqlAlgebra.Sorted.Map

/-!
Finite sets as sorted maps without values, with the union, selection and disjointness that scope
summaries and graphs need.
-/

namespace SparqlAlgebra

open Std

universe u

/-- A finite set, listed in strictly ascending order. -/
abbrev SortedSet (κ : Type u) [Ord κ] := SortedMap κ Unit

namespace SortedSet

variable {κ : Type u} [Ord κ]

instance : Membership κ (SortedSet κ) := ⟨fun s k => SortedMap.contains s k = true⟩

instance (s : SortedSet κ) (k : κ) : Decidable (k ∈ s) :=
  inferInstanceAs (Decidable (SortedMap.contains s k = true))

def toList (s : SortedSet κ) : List κ := s.keys

def filter (p : κ → Bool) (s : SortedSet κ) : SortedSet κ :=
  ⟨s.entries.filter fun e => p e.1, s.ascending.filter _⟩

def disjoint (s t : SortedSet κ) : Bool := s.toList.all fun k => !SortedMap.contains t k

variable [TransOrd κ] [LawfulEqOrd κ]

def add (s : SortedSet κ) (k : κ) : SortedSet κ := SortedMap.insert s k ()

def addAll (s : SortedSet κ) (l : List κ) : SortedSet κ := l.foldl add s

def ofList (l : List κ) : SortedSet κ := addAll ∅ l

def union (s t : SortedSet κ) : SortedSet κ := addAll s t.toList

def inter (s t : SortedSet κ) : SortedSet κ := filter (fun k => SortedMap.contains t k) s

def diff (s t : SortedSet κ) : SortedSet κ := filter (fun k => !SortedMap.contains t k) s

@[simp] theorem mem_add [DecidableEq κ] {s : SortedSet κ} {k j : κ} :
    j ∈ add s k ↔ j = k ∨ j ∈ s := by
  by_cases h : j = k <;> simp [Membership.mem, SortedMap.contains, add, h]

theorem mem_addAll [DecidableEq κ] {s : SortedSet κ} {l : List κ} {j : κ} :
    j ∈ addAll s l ↔ j ∈ l ∨ j ∈ s := by
  induction l generalizing s with
  | nil => simp [addAll]
  | cons k l ih =>
    show j ∈ addAll (add s k) l ↔ _
    rw [ih, mem_add, List.mem_cons, or_left_comm, or_assoc]

/-- Sets with the same members are equal. -/
theorem ext_iff {s t : SortedSet κ} : s = t ↔ ∀ j, j ∈ s ↔ j ∈ t := by
  refine ⟨fun h j => h ▸ Iff.rfl, fun h => SortedMap.ext_get? fun j => ?_⟩
  have hj : (s.get? j).isSome ↔ (t.get? j).isSome := h j
  cases hs : s.get? j <;> cases ht : t.get? j <;> simp_all

omit [TransOrd κ] in
theorem nodup_toList (s : SortedSet κ) : s.toList.Nodup := by
  rw [List.Nodup, toList, SortedMap.keys, List.pairwise_map]
  refine s.ascending.imp fun h e => ?_
  rw [e, ReflOrd.compare_self] at h
  cases h

omit [TransOrd κ] in
@[simp] theorem mem_toList {s : SortedSet κ} {j : κ} : j ∈ s.toList ↔ j ∈ s := SortedMap.mem_keys

@[simp] theorem mem_ofList [DecidableEq κ] {l : List κ} {j : κ} : j ∈ ofList l ↔ j ∈ l := by
  rw [ofList, mem_addAll]
  exact or_iff_left (by simp [Membership.mem, SortedMap.contains])

@[simp] theorem ofList_toList [DecidableEq κ] (s : SortedSet κ) : ofList s.toList = s :=
  ext_iff.2 fun _ => by rw [mem_ofList, mem_toList]

@[simp] theorem mem_union [DecidableEq κ] {s t : SortedSet κ} {j : κ} :
    j ∈ union s t ↔ j ∈ s ∨ j ∈ t := by
  rw [union, mem_addAll, mem_toList, or_comm]

omit [TransOrd κ] in
@[simp] theorem mem_filter {p : κ → Bool} {s : SortedSet κ} {j : κ} :
    j ∈ filter p s ↔ j ∈ s ∧ p j = true := by
  rw [← mem_toList, ← mem_toList (s := s)]
  constructor
  · intro h
    obtain ⟨e, he, rfl⟩ := List.mem_map.1 h
    obtain ⟨he, hp⟩ := List.mem_filter.1 he
    exact ⟨List.mem_map.2 ⟨e, he, rfl⟩, hp⟩
  · rintro ⟨h, hp⟩
    obtain ⟨e, he, rfl⟩ := List.mem_map.1 h
    exact List.mem_map.2 ⟨e, List.mem_filter.2 ⟨he, hp⟩, rfl⟩

omit [TransOrd κ] in
@[simp] theorem mem_inter {s t : SortedSet κ} {j : κ} : j ∈ inter s t ↔ j ∈ s ∧ j ∈ t := by
  rw [inter, mem_filter]
  rfl

omit [TransOrd κ] in
@[simp] theorem mem_diff {s t : SortedSet κ} {j : κ} : j ∈ diff s t ↔ j ∈ s ∧ j ∉ t := by
  rw [diff, mem_filter]
  simp [Membership.mem]

omit [TransOrd κ] [LawfulEqOrd κ] in
@[simp] theorem not_mem_empty {j : κ} : j ∉ (∅ : SortedSet κ) := by
  simp [Membership.mem, SortedMap.contains]

omit [TransOrd κ] in
theorem disjoint_iff {s t : SortedSet κ} : disjoint s t = true ↔ ∀ j ∈ s, j ∉ t := by
  rw [disjoint, List.all_eq_true]
  refine forall_congr' fun j => ?_
  rw [mem_toList, Bool.not_eq_true', ← Bool.not_eq_true]
  rfl

end SortedSet

end SparqlAlgebra
