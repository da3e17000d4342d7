import SparqlAlgebra.Binding.Basic

/-!
Rows under `merge` form a partial commutative monoid: a merge is defined exactly when the two rows
agree where both are bound, and then binds what either binds.
-/

namespace SparqlAlgebra

namespace Binding

theorem mem_dom {b : Binding} {v : Var} : v ∈ b.dom ↔ b.contains v = true := by
  rw [dom, SortedSet.mem_ofList, SortedMap.mem_keys]

/-- The two rows bind no variable differently. -/
def Agree (a b : Binding) : Prop :=
  ∀ v s t, a.get? v = some s → b.get? v = some t → s = t

theorem Agree.symm {a b : Binding} (h : Agree a b) : Agree b a :=
  fun v s t hs ht => (h v t s ht hs).symm

/-- Rows agree if a third row agrees with both and binds all that they share. -/
theorem Agree.through {a b c : Binding} (hab : Agree a b) (hbc : Agree b c)
    (h : ∀ v, a.contains v → c.contains v → b.contains v) : Agree a c := by
  intro v s t hs ht
  have hv : b.contains v := h v (by simp [SortedMap.contains, hs]) (by simp [SortedMap.contains, ht])
  obtain ⟨u, hu⟩ := Option.isSome_iff_exists.1 hv
  exact (hab v s u hs hu).trans (hbc v u t hu ht)

/-- Rows that agree may be read in either order. -/
theorem Agree.or_comm {a b : Binding} (h : Agree a b) (v : Var) :
    (a.get? v).or (b.get? v) = (b.get? v).or (a.get? v) := by
  cases hs : a.get? v with
  | none => simp
  | some s =>
    cases ht : b.get? v with
    | none => rfl
    | some t => rw [h v s t hs ht]

theorem admits_iff {a b : Binding} : b.admits a = true ↔ Agree a b := by
  rw [admits, List.all_eq_true]
  constructor
  · intro h v s t hs ht
    have hall := h (v, s) ((a.get?_eq_some_iff).1 hs)
    simp only [ht, Option.all_some, beq_iff_eq] at hall
    exact hall.symm
  · rintro h ⟨v, s⟩ he
    have hs : a.get? v = some s := (a.get?_eq_some_iff).2 he
    cases ht : b.get? v with
    | none => rfl
    | some t =>
      simp only [Option.all_some, beq_iff_eq]
      exact (h v s t hs ht).symm

/-- Whichever row is looked through, the test is whether the rows agree. -/
theorem compatible_iff {a b : Binding} : a.compatible b = true ↔ Agree a b := by
  unfold compatible
  split
  · exact admits_iff
  · exact admits_iff.trans ⟨Agree.symm, Agree.symm⟩

theorem get?_fill (a b : Binding) (v : Var) :
    (a.fill b).get? v = (a.get? v).or (b.get? v) :=
  SortedMap.get?_foldl_insertNew b.entries a v

/-- A merge is defined when the rows agree, and binds what either of them binds. -/
theorem merge_eq_some_iff {a b c : Binding} :
    a.merge b = some c ↔ Agree a b ∧ ∀ v, c.get? v = (a.get? v).or (b.get? v) := by
  unfold merge
  constructor
  · intro h
    split at h
    · rename_i hc
      cases h
      exact ⟨compatible_iff.1 hc, get?_fill a b⟩
    · cases h
  · rintro ⟨hc, hv⟩
    rw [if_pos (compatible_iff.2 hc)]
    congr 1
    ext v
    rw [get?_fill, hv]

theorem merge_eq_none_iff {a b : Binding} : a.merge b = none ↔ ¬ Agree a b := by
  rw [← compatible_iff, merge]
  split <;> simp_all

theorem merge_isSome (a b : Binding) : (a.merge b).isSome = a.compatible b := by
  unfold merge
  split <;> simp_all

theorem merge_comm (a b : Binding) : a.merge b = b.merge a := by
  ext c
  rw [merge_eq_some_iff, merge_eq_some_iff]
  constructor
  · rintro ⟨h, hc⟩
    exact ⟨h.symm, fun v => (hc v).trans (h.or_comm v)⟩
  · rintro ⟨h, hc⟩
    exact ⟨h.symm, fun v => (hc v).trans (h.or_comm v)⟩

@[simp] theorem merge_empty (a : Binding) : a.merge ∅ = some a := by
  rw [merge_eq_some_iff]
  exact ⟨fun v s t _ ht => by simp at ht, fun v => by simp⟩

@[simp] theorem empty_merge (a : Binding) : Binding.merge ∅ a = some a := by
  rw [merge_comm, merge_empty]

/-- A third row agrees with a merge exactly when it agrees with both parts. -/
theorem agree_merge_iff {a b c d : Binding} (h : a.merge b = some c) :
    Agree c d ↔ Agree a d ∧ Agree b d := by
  obtain ⟨hab, hc⟩ := merge_eq_some_iff.1 h
  constructor
  · intro hd
    constructor
    · intro v s t hs ht
      exact hd v s t (by rw [hc, hs]; rfl) ht
    · intro v s t hs ht
      cases ha : a.get? v with
      | none => exact hd v s t (by rw [hc, ha, hs]; rfl) ht
      | some r =>
        have hr : c.get? v = some r := by rw [hc, ha]; rfl
        rw [← hab v r s ha hs]
        exact hd v r t hr ht
  · rintro ⟨had, hbd⟩ v s t hs ht
    rw [hc] at hs
    cases ha : a.get? v with
    | none =>
      rw [ha] at hs
      exact hbd v s t hs ht
    | some r =>
      rw [ha] at hs
      exact had v s t (by rw [ha]; exact hs) ht

theorem merge_assoc (a b c : Binding) :
    ((a.merge b).bind fun ab => ab.merge c) = (b.merge c).bind fun bc => a.merge bc := by
  -- Either side is defined when the three rows agree in pairs.
  ext d
  rw [Option.bind_eq_some_iff, Option.bind_eq_some_iff]
  constructor
  · rintro ⟨ab, hab, hd⟩
    obtain ⟨habc, hd⟩ := merge_eq_some_iff.1 hd
    obtain ⟨hac, hbc⟩ := (agree_merge_iff hab).1 habc
    have hm : b.merge c = some (b.fill c) := if_pos (compatible_iff.2 hbc)
    refine ⟨b.fill c, hm, merge_eq_some_iff.2 ⟨?_, fun v => ?_⟩⟩
    · exact ((agree_merge_iff hm).2 ⟨(merge_eq_some_iff.1 hab).1.symm, hac.symm⟩).symm
    · rw [hd, (merge_eq_some_iff.1 hab).2, (merge_eq_some_iff.1 hm).2, Option.or_assoc]
  · rintro ⟨bc, hbc, hd⟩
    obtain ⟨habc, hd⟩ := merge_eq_some_iff.1 hd
    obtain ⟨hba, hca⟩ := (agree_merge_iff hbc).1 habc.symm
    have hm : a.merge b = some (a.fill b) := if_pos (compatible_iff.2 hba.symm)
    refine ⟨a.fill b, hm, merge_eq_some_iff.2 ⟨?_, fun v => ?_⟩⟩
    · exact (agree_merge_iff hm).2 ⟨hca.symm, (merge_eq_some_iff.1 hbc).1⟩
    · rw [hd, (merge_eq_some_iff.1 hbc).2, (merge_eq_some_iff.1 hm).2, Option.or_assoc]

/-- Where the first row binds nothing that the second leaves open, a merge reads as the second. -/
theorem get?_merge_right {a b c : Binding} (h : a.merge b = some c) {v : Var}
    (hv : a.contains v → b.contains v) : c.get? v = b.get? v := by
  obtain ⟨hab, hc⟩ := merge_eq_some_iff.1 h
  rw [hc]
  cases hs : a.get? v with
  | none => rfl
  | some s =>
    have hb : (b.get? v).isSome := hv (by simp [SortedMap.contains, hs])
    obtain ⟨t, ht⟩ := Option.isSome_iff_exists.1 hb
    rw [ht, hab v s t hs ht]
    rfl

theorem get?_of_merge_left {a b c : Binding} (h : a.merge b = some c) {v : Var} {t : Term}
    (ht : a.get? v = some t) : c.get? v = some t := by
  rw [(merge_eq_some_iff.1 h).2, ht]
  rfl

theorem get?_of_merge_right {a b c : Binding} (h : a.merge b = some c) {v : Var} {t : Term}
    (ht : b.get? v = some t) : c.get? v = some t := by
  rw [merge_comm] at h
  exact get?_of_merge_left h ht

/-- A merge takes each of its terms from one of its parts. -/
theorem get?_of_merge {a b c : Binding} (h : a.merge b = some c) {v : Var} {t : Term}
    (ht : c.get? v = some t) : a.get? v = some t ∨ b.get? v = some t := by
  rw [(merge_eq_some_iff.1 h).2, Option.or_eq_some_iff] at ht
  exact ht.imp_right (·.2)

theorem contains_merge {a b c : Binding} (h : a.merge b = some c) (v : Var) :
    c.contains v = (a.contains v || b.contains v) := by
  rw [SortedMap.contains, (merge_eq_some_iff.1 h).2, Option.isSome_or]
  rfl

/-- A merge and what was bound in one of its parts make out that part. -/
theorem eq_of_merge {a b c d x : Binding} (h : a.merge b = some x) (h' : c.merge d = some x)
    (hv : ∀ v, a.contains v = c.contains v) : a = c := by
  ext v
  have hac := hv v
  rw [SortedMap.contains, SortedMap.contains] at hac
  cases hs : a.get? v with
  | none =>
    rw [hs] at hac
    rw [Option.isNone_iff_eq_none.1 (Option.isSome_eq_false_iff.1 hac.symm)]
  | some s =>
    rw [hs] at hac
    obtain ⟨t, ht⟩ := Option.isSome_iff_exists.1 hac.symm
    rw [ht, ← get?_of_merge_left h hs, ← get?_of_merge_left h' ht]

/-- Rows that bind alike what a third row binds are told apart by their merges with it. -/
theorem eq_of_merge_eq {i a b x : Binding} (ha : i.merge a = some x) (hb : i.merge b = some x)
    (h : ∀ v, i.contains v → a.contains v = b.contains v) : a = b := by
  obtain ⟨hia, hxa⟩ := merge_eq_some_iff.1 ha
  obtain ⟨hib, hxb⟩ := merge_eq_some_iff.1 hb
  ext v
  have hx := (hxa v).symm.trans (hxb v)
  -- What `i` leaves open is read off the merges, and the rest off `i`.
  cases hs : i.get? v with
  | none =>
    rw [hs, Option.none_or, Option.none_or] at hx
    rw [hx]
  | some s =>
    have hv := h v (by simp [SortedMap.contains, hs])
    rw [SortedMap.contains, SortedMap.contains] at hv
    cases hta : a.get? v with
    | none =>
      rw [hta] at hv
      rw [Option.isSome_eq_false_iff.1 hv.symm |> Option.isNone_iff_eq_none.1]
    | some t =>
      rw [hta] at hv
      obtain ⟨u, htb⟩ := Option.isSome_iff_exists.1 hv.symm
      rw [htb, ← hia v s t hs hta, ← hib v s u hs htb]

theorem get?_single (v w : Var) (t : Term) :
    (single v t).get? w = if w = v then some t else none := by
  rw [single, SortedMap.get?_insert, SortedMap.get?_empty]

theorem agree_single_iff {b : Binding} {v : Var} {t : Term} :
    Agree b (single v t) ↔ ∀ s, b.get? v = some s → s = t := by
  constructor
  · intro h s hs
    exact h v s t hs (by rw [get?_single, if_pos rfl])
  · intro h w s u hs hu
    rw [get?_single] at hu
    split at hu
    · rename_i e
      subst e
      exact (h s hs).trans (Option.some.inj hu)
    · cases hu

theorem merge_single (b : Binding) (v : Var) (t : Term) :
    b.merge (single v t) =
      match b.get? v with
      | some old => if old = t then some b else none
      | none => some (b.insert v t) := by
  cases hv : b.get? v with
  | none =>
    have hagree : Agree b (single v t) := agree_single_iff.2 fun s hs => by simp [hv] at hs
    refine merge_eq_some_iff.2 ⟨hagree, fun w => ?_⟩
    rw [SortedMap.get?_insert, get?_single]
    by_cases e : w = v <;> simp [e, hv]
  | some old =>
    simp only
    split
    · rename_i e
      have hagree : Agree b (single v t) :=
        agree_single_iff.2 fun s hs => (Option.some.inj (hs.symm.trans hv)).trans e
      refine merge_eq_some_iff.2 ⟨hagree, fun w => ?_⟩
      rw [get?_single]
      by_cases ew : w = v <;> simp [ew, hv]
    · rename_i e
      exact merge_eq_none_iff.2 fun h => e (agree_single_iff.1 h old hv)

theorem get?_foldl_project (a : Binding) (vars : List Var) (m : Binding) (v : Var) :
    ((vars.filterMap fun w => (a.get? w).map (w, ·)).foldl (fun m e => m.insert e.1 e.2) m).get? v =
      if v ∈ vars then (a.get? v).or (m.get? v) else m.get? v := by
  induction vars generalizing m with
  | nil => rfl
  | cons w vars ih =>
    cases hw : a.get? w with
    | none =>
      rw [List.filterMap_cons_none (by rw [hw]; rfl), ih]
      by_cases e : v = w
      · subst e
        simp [hw]
      · simp [e]
    | some t =>
      rw [List.filterMap_cons_some (by rw [hw]; rfl), List.foldl_cons, ih, SortedMap.get?_insert]
      by_cases e : v = w
      · subst e
        simp [hw]
      · simp [e]

theorem get?_project (a : Binding) (vars : List Var) (v : Var) :
    (a.project vars).get? v = if v ∈ vars then a.get? v else none := by
  have h := get?_foldl_project a vars ∅ v
  rw [SortedMap.get?_empty, Option.or_none] at h
  exact h

theorem contains_project (a : Binding) (vars : List Var) (v : Var) :
    (a.project vars).contains v = true ↔ v ∈ vars ∧ a.contains v = true := by
  rw [SortedMap.contains, get?_project]
  split <;> simp_all [SortedMap.contains]

/-- A row that binds listed variables only may be merged in before a projection or after it. -/
theorem map_project_merge {i : Binding} {vars : List Var} (b : Binding)
    (h : ∀ v, i.contains v → v ∈ vars) :
    (i.merge b).map (·.project vars) = i.merge (b.project vars) := by
  have hi (v : Var) (hv : v ∉ vars) : i.get? v = none := by
    rw [← Option.not_isSome_iff_eq_none]
    exact fun hs => hv (h v hs)
  ext c
  rw [Option.map_eq_some_iff, merge_eq_some_iff]
  constructor
  · rintro ⟨x, hx, rfl⟩
    obtain ⟨hib, hx⟩ := merge_eq_some_iff.1 hx
    refine ⟨fun v s t hs ht => ?_, fun v => ?_⟩
    · rw [get?_project, if_pos (h v (by simp [SortedMap.contains, hs]))] at ht
      exact hib v s t hs ht
    · rw [get?_project, get?_project, hx]
      split
      · rfl
      · rename_i hv
        rw [hi v hv]
        rfl
  · rintro ⟨hib, hc⟩
    have hagree : Agree i b := by
      intro v s t hs ht
      refine hib v s t hs ?_
      rw [get?_project, if_pos (h v (by simp [SortedMap.contains, hs])), ht]
    have hm : i.merge b = some (i.fill b) := if_pos (compatible_iff.2 hagree)
    refine ⟨_, hm, ?_⟩
    ext v
    rw [get?_project, (merge_eq_some_iff.1 hm).2, hc, get?_project]
    split
    · rfl
    · rename_i hv
      rw [hi v hv]
      rfl

end Binding

end SparqlAlgebra
