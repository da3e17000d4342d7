/-!
Finite maps kept as association lists with strictly ascending keys. Two maps that answer every
lookup alike are the same value, and an insertion changes one key only.
-/

namespace SparqlAlgebra

open Std

universe u v w x

/-- A finite map: entries in strictly ascending key order. -/
structure SortedMap (κ : Type u) (α : Type v) [Ord κ] where
  entries : List (κ × α)
  ascending : entries.Pairwise fun a b => compare a.1 b.1 = .lt

namespace SortedMap

variable {κ : Type u} {α : Type v} [Ord κ]

instance [DecidableEq κ] [DecidableEq α] : DecidableEq (SortedMap κ α) := fun a b =>
  if h : a.entries = b.entries then isTrue (by cases a; cases b; simp_all)
  else isFalse fun e => h (by rw [e])

def empty : SortedMap κ α := ⟨[], .nil⟩

instance : EmptyCollection (SortedMap κ α) := ⟨empty⟩

instance : Inhabited (SortedMap κ α) := ⟨empty⟩

def find (k : κ) : List (κ × α) → Option α
  | [] => none
  | e :: rest => if compare k e.1 = .eq then some e.2 else find k rest

/-- Puts `v` under `k` at its place in an ascending entry list, replacing what was there. -/
def place (k : κ) (v : α) : List (κ × α) → List (κ × α)
  | [] => [(k, v)]
  | e :: rest =>
    match compare k e.1 with
    | .lt => (k, v) :: e :: rest
    | .eq => (k, v) :: rest
    | .gt => e :: place k v rest

def get? (m : SortedMap κ α) (k : κ) : Option α := find k m.entries

def contains (m : SortedMap κ α) (k : κ) : Bool := (m.get? k).isSome

def keys (m : SortedMap κ α) : List κ := m.entries.map (·.1)

def size (m : SortedMap κ α) : Nat := m.entries.length

def isEmpty (m : SortedMap κ α) : Bool := m.entries.isEmpty

/-- An entry of `place k v l` is the new one or an old one. -/
theorem mem_place {k : κ} {v : α} {l : List (κ × α)} {e : κ × α} (h : e ∈ place k v l) :
    e = (k, v) ∨ e ∈ l := by
  induction l with
  | nil => simpa [place] using h
  | cons a rest ih =>
    rw [place] at h
    split at h
    · simpa using h
    · rcases List.mem_cons.1 h with h | h
      · exact .inl h
      · exact .inr (List.mem_cons_of_mem _ h)
    · rcases List.mem_cons.1 h with h | h
      · exact .inr (h ▸ List.mem_cons_self)
      · exact (ih h).imp id (List.mem_cons_of_mem _)

variable [TransOrd κ] [LawfulEqOrd κ]

theorem place_ascending (k : κ) (v : α) {l : List (κ × α)}
    (h : l.Pairwise fun a b => compare a.1 b.1 = .lt) :
    (place k v l).Pairwise fun a b => compare a.1 b.1 = .lt := by
  induction l with
  | nil => exact List.pairwise_singleton ..
  | cons a rest ih =>
    obtain ⟨ha, hr⟩ := List.pairwise_cons.1 h
    rw [place]
    split
    · rename_i hk
      refine List.pairwise_cons.2 ⟨fun e he => ?_, h⟩
      rcases List.mem_cons.1 he with rfl | he
      · exact hk
      · exact TransCmp.lt_trans hk (ha e he)
    · rename_i hk
      refine List.pairwise_cons.2 ⟨fun e he => ?_, hr⟩
      rw [LawfulEqCmp.eq_of_compare hk]
      exact ha e he
    · rename_i hk
      refine List.pairwise_cons.2 ⟨fun e he => ?_, ih hr⟩
      rcases mem_place he with rfl | he
      · exact OrientedCmp.lt_of_gt hk
      · exact ha e he

def insert (m : SortedMap κ α) (k : κ) (v : α) : SortedMap κ α :=
  ⟨place k v m.entries, place_ascending k v m.ascending⟩

/-- Puts `v` under `k` unless there is something under it already. -/
def insertNew (m : SortedMap κ α) (k : κ) (v : α) : SortedMap κ α :=
  if m.contains k then m else m.insert k v

/-- Inserts the pairs from left to right, so a later pair wins. -/
def ofList (l : List (κ × α)) : SortedMap κ α :=
  l.foldl (fun m e => m.insert e.1 e.2) ∅

omit [TransOrd κ] in
theorem find_place [DecidableEq κ] (k : κ) (v : α) (l : List (κ × α)) (j : κ) :
    find j (place k v l) = if j = k then some v else find j l := by
  induction l with
  | nil => simp [place, find]
  | cons a rest ih =>
    rw [place]
    split
    · simp [find]
    · rename_i hk
      have := LawfulEqCmp.eq_of_compare hk
      subst this
      by_cases hj : j = a.1 <;> simp [find, hj]
    · rename_i hk
      by_cases hj : j = k
      · subst hj; simp [find, ih, hk]
      · simp [find, ih, hj]

@[simp] theorem get?_insert [DecidableEq κ] (m : SortedMap κ α) (k : κ) (v : α) (j : κ) :
    (m.insert k v).get? j = if j = k then some v else m.get? j :=
  find_place k v m.entries j

@[simp] theorem get?_insertNew [DecidableEq κ] (m : SortedMap κ α) (k : κ) (v : α) (j : κ) :
    (m.insertNew k v).get? j = (m.get? j).or (if j = k then some v else none) := by
  unfold insertNew contains
  by_cases hk : j = k
  · subst hk
    cases hm : m.get? j <;> simp [hm]
  · split <;> simp [hk]

omit [TransOrd κ] [LawfulEqOrd κ] in
@[simp] theorem get?_empty (k : κ) : (∅ : SortedMap κ α).get? k = none := rfl

omit [TransOrd κ] in
/-- In an ascending list the pairs are exactly what lookup finds. -/
theorem find_eq_some_iff {k : κ} {v : α} {l : List (κ × α)}
    (h : l.Pairwise fun a b => compare a.1 b.1 = .lt) : find k l = some v ↔ (k, v) ∈ l := by
  induction l with
  | nil => simp [find]
  | cons a rest ih =>
    obtain ⟨ha, hr⟩ := List.pairwise_cons.1 h
    rw [find]
    split
    · rename_i hk
      have hk := LawfulEqCmp.eq_of_compare hk
      constructor
      · intro hv
        exact List.mem_cons.2 (.inl (by cases a; simp_all))
      · intro hm
        rcases List.mem_cons.1 hm with hm | hm
        · simp [← hm]
        · have := ha _ hm
          simp [hk] at this
    · rename_i hk
      rw [ih hr, List.mem_cons]
      refine ⟨.inr, fun hm => hm.resolve_left fun e => hk ?_⟩
      simp [← e]

omit [TransOrd κ] [LawfulEqOrd κ] in
theorem find_append (k : κ) (l r : List (κ × α)) :
    find k (l ++ r) = (find k l).or (find k r) := by
  induction l with
  | nil => rfl
  | cons e l ih =>
    rw [List.cons_append, find, find, ih]
    split <;> rfl

omit [TransOrd κ] in
theorem mem_of_find {k : κ} {v : α} {l : List (κ × α)} (h : find k l = some v) : (k, v) ∈ l := by
  induction l with
  | nil => cases h
  | cons e l ih =>
    rw [find] at h
    split at h
    · rename_i hk
      rw [LawfulEqCmp.eq_of_compare hk, ← Option.some.inj h]
      exact List.mem_cons_self
    · exact List.mem_cons_of_mem e (ih h)

omit [TransOrd κ] in
theorem isSome_find {k : κ} {l : List (κ × α)} : (find k l).isSome ↔ ∃ v, (k, v) ∈ l := by
  constructor
  · intro h
    obtain ⟨v, hv⟩ := Option.isSome_iff_exists.1 h
    exact ⟨v, mem_of_find hv⟩
  · rintro ⟨v, hv⟩
    induction l with
    | nil => cases hv
    | cons e l ih =>
      rw [find]
      split
      · rfl
      · rename_i hk
        refine ih ((List.mem_cons.1 hv).resolve_left fun he => hk ?_)
        rw [← he, compare_self]

omit [TransOrd κ] in
theorem get?_eq_some_iff (m : SortedMap κ α) {k : κ} {v : α} :
    m.get? k = some v ↔ (k, v) ∈ m.entries :=
  find_eq_some_iff m.ascending

omit [TransOrd κ] in
theorem find_reverse {k : κ} {l : List (κ × α)}
    (h : l.Pairwise fun a b => compare a.1 b.1 = .lt) : find k l.reverse = find k l := by
  cases hr : find k l.reverse with
  | some v => exact ((find_eq_some_iff h).2 (List.mem_reverse.1 (mem_of_find hr))).symm
  | none =>
    rw [eq_comm, ← Option.not_isSome_iff_eq_none, isSome_find]
    rw [← Option.not_isSome_iff_eq_none, isSome_find] at hr
    simpa only [List.mem_reverse] using hr

omit [TransOrd κ] in
theorem mem_keys {m : SortedMap κ α} {k : κ} : k ∈ m.keys ↔ m.contains k = true := by
  simp only [contains, Option.isSome_iff_exists, get?_eq_some_iff]
  constructor
  · intro h
    obtain ⟨⟨j, v⟩, he, rfl⟩ := List.mem_map.1 h
    exact ⟨v, he⟩
  · rintro ⟨v, hv⟩
    exact List.mem_map.2 ⟨(k, v), hv, rfl⟩

omit [TransOrd κ] in
theorem get?_eq_none_iff {m : SortedMap κ α} {k : κ} : m.get? k = none ↔ k ∉ m.keys := by
  rw [mem_keys, contains, Option.not_isSome_iff_eq_none]

omit [TransOrd κ] [LawfulEqOrd κ] in
/-- A key that precedes every key of an ascending list is not found in it. -/
theorem find_eq_none_of_lt {k : κ} {l : List (κ × α)} (h : ∀ e ∈ l, compare k e.1 = .lt) :
    find k l = none := by
  induction l with
  | nil => rfl
  | cons e l ih =>
    have he := h e List.mem_cons_self
    rw [find, if_neg (by simp [he])]
    exact ih fun f hf => h f (List.mem_cons_of_mem e hf)

omit [TransOrd κ] in
/-- Picking one key out of all entries is looking it up. -/
theorem flatMap_entries_ite {β : Type w} [DecidableEq κ] (m : SortedMap κ α) (k : κ)
    (f : α → List β) :
    (m.entries.flatMap fun e => if k = e.1 then f e.2 else []) = (m.get? k).elim [] f := by
  obtain ⟨l, hl⟩ := m
  show (l.flatMap fun e => if k = e.1 then f e.2 else []) = (find k l).elim [] f
  induction l with
  | nil => rfl
  | cons e l ih =>
    obtain ⟨he, hl⟩ := List.pairwise_cons.1 hl
    rw [List.flatMap_cons, ih hl, find]
    by_cases hk : k = e.1
    · have hrest : find k l = none := find_eq_none_of_lt (hk ▸ he)
      rw [if_pos hk, if_pos (LawfulEqCmp.compare_eq_iff_eq.2 hk), hrest]
      simp
    · rw [if_neg hk, if_neg (mt LawfulEqCmp.compare_eq_iff_eq.1 hk), List.nil_append]

/-- Of pairs that are inserted from left to right under the same key the last one stays. -/
theorem get?_foldl_insert [DecidableEq κ] (l : List (κ × α)) (m : SortedMap κ α) (k : κ) :
    (l.foldl (fun m e => m.insert e.1 e.2) m).get? k = (find k l.reverse).or (m.get? k) := by
  induction l generalizing m with
  | nil => rfl
  | cons e l ih =>
    rw [List.foldl_cons, ih, get?_insert, List.reverse_cons, find_append, Option.or_assoc, find]
    by_cases hk : k = e.1
    · rw [if_pos hk, if_pos (LawfulEqCmp.compare_eq_iff_eq.2 hk)]
      rfl
    · rw [if_neg hk, if_neg (mt LawfulEqCmp.compare_eq_iff_eq.1 hk)]
      rfl

/-- Of pairs that are put under keys that have nothing yet the first one stays. -/
theorem get?_foldl_insertNew [DecidableEq κ] (l : List (κ × α)) (m : SortedMap κ α) (k : κ) :
    (l.foldl (fun m e => m.insertNew e.1 e.2) m).get? k = (m.get? k).or (find k l) := by
  induction l generalizing m with
  | nil => rw [find, Option.or_none, List.foldl_nil]
  | cons e l ih =>
    rw [List.foldl_cons, ih, get?_insertNew, Option.or_assoc, find]
    by_cases hk : k = e.1
    · rw [if_pos hk, if_pos (LawfulEqCmp.compare_eq_iff_eq.2 hk), Option.some_or]
    · rw [if_neg hk, if_neg (mt LawfulEqCmp.compare_eq_iff_eq.1 hk), Option.none_or]

theorem get?_ofList [DecidableEq κ] (l : List (κ × α)) (k : κ) :
    (ofList l).get? k = find k l.reverse := by
  rw [ofList, get?_foldl_insert, get?_empty, Option.or_none]

/-- Ascending lists with the same members are the same list. -/
theorem eq_of_mem_iff {l r : List (κ × α)} (hl : l.Pairwise fun a b => compare a.1 b.1 = .lt)
    (hr : r.Pairwise fun a b => compare a.1 b.1 = .lt) (h : ∀ e, e ∈ l ↔ e ∈ r) : l = r := by
  induction l generalizing r with
  | nil =>
    cases r with
    | nil => rfl
    | cons b r => exact absurd ((h b).2 List.mem_cons_self) (by simp)
  | cons a l ih =>
    cases r with
    | nil => exact absurd ((h a).1 List.mem_cons_self) (by simp)
    | cons b r =>
      obtain ⟨ha, hl'⟩ := List.pairwise_cons.1 hl
      obtain ⟨hb, hr'⟩ := List.pairwise_cons.1 hr
      have hab : a = b := by
        rcases List.mem_cons.1 ((h a).1 List.mem_cons_self) with e | hab
        · exact e
        rcases List.mem_cons.1 ((h b).2 List.mem_cons_self) with e | hba
        · exact e.symm
        have := TransCmp.lt_trans (ha b hba) (hb a hab)
        simp at this
      subst hab
      refine congrArg (a :: ·) (ih hl' hr' fun e => ?_)
      have he := h e
      simp only [List.mem_cons] at he
      constructor
      · intro hm
        rcases he.1 (.inr hm) with rfl | hm'
        · have := ha _ hm; simp at this
        · exact hm'
      · intro hm
        rcases he.2 (.inr hm) with rfl | hm'
        · have := hb _ hm; simp at this
        · exact hm'

/-- Maps that answer every lookup alike are equal. -/
@[ext] theorem ext_get? {m n : SortedMap κ α} (h : ∀ k, m.get? k = n.get? k) : m = n := by
  have hl : m.entries = n.entries := eq_of_mem_iff m.ascending n.ascending fun e => by
    rw [← m.get?_eq_some_iff (k := e.1) (v := e.2), ← n.get?_eq_some_iff, h]
  cases m; cases n; simp_all

theorem ofList_entries [DecidableEq κ] (m : SortedMap κ α) : ofList m.entries = m := by
  ext k : 1
  rw [get?_ofList, find_reverse m.ascending]
  rfl

section

variable {ι : Type w} {β : Type x} [Ord ι] [TransOrd ι] [LawfulEqOrd ι] (m : SortedMap κ α)
  (f : κ → ι) (g : α → β)

/-- When all keys are given other names, the last of the keys with a new name hands on what it has. -/
theorem get?_ofList_map [DecidableEq ι] {k : κ} (hk : k ∈ m.keys)
    (h : ∀ j ∈ m.keys, f j = f k → j = k ∨ compare j k = .lt) :
    (ofList (m.entries.map fun e => (f e.1, g e.2))).get? (f k) = (m.get? k).map g := by
  obtain ⟨⟨k, v⟩, he, rfl⟩ := List.mem_map.1 hk
  rw [get?_ofList, m.get?_eq_some_iff.2 he, Option.map_some]
  obtain ⟨l, r, hlr⟩ := List.append_of_mem he
  have hr : find (f k) (r.map fun e => (f e.1, g e.2)).reverse = none := by
    -- The entries to the right have later keys.
    rw [← Option.not_isSome_iff_eq_none, isSome_find]
    rintro ⟨w, hw⟩
    obtain ⟨e, her, hew⟩ := List.mem_map.1 (List.mem_reverse.1 hw)
    have hlt : compare k e.1 = .lt := by
      have hasc := m.ascending
      rw [hlr, List.pairwise_append, List.pairwise_cons] at hasc
      exact hasc.2.1.1 e her
    have hmem : e ∈ m.entries := by
      rw [hlr]
      exact List.mem_append_right l (List.mem_cons_of_mem _ her)
    rcases h e.1 (List.mem_map.2 ⟨e, hmem, rfl⟩) (Prod.mk.inj hew).1 with hek | hek
    · simp [hek] at hlt
    · simp [OrientedCmp.gt_of_lt hlt] at hek
  rw [hlr, List.map_append, List.map_cons, List.reverse_append, List.reverse_cons, List.append_assoc,
    find_append, hr, Option.none_or, List.singleton_append, find, if_pos compare_self]

omit [TransOrd κ] [LawfulEqOrd κ] in
theorem mem_keys_ofList_map [DecidableEq ι] {i : ι} :
    i ∈ (ofList (m.entries.map fun e => (f e.1, g e.2))).keys ↔ ∃ k ∈ m.keys, i = f k := by
  rw [mem_keys, contains, get?_ofList, isSome_find]
  simp only [List.mem_reverse, List.mem_map, keys]
  constructor
  · rintro ⟨w, e, he, hew⟩
    exact ⟨e.1, ⟨e, he, rfl⟩, (Prod.mk.inj hew).1.symm⟩
  · rintro ⟨k, ⟨e, he, rfl⟩, rfl⟩
    exact ⟨g e.2, e, he, rfl⟩

end

end SortedMap

end SparqlAlgebra
