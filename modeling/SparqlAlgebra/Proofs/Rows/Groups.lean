import SparqlAlgebra.Proofs.Rows.Apart

/-!
Groups of rows. The loop over the rows keeps an index of the keys that have come up beside the groups
that it fills; index and groups agree after every row, so the groups are a partition of the rows by
their keys, in the order in which the keys come up.
-/

namespace SparqlAlgebra.Rows

/-- The keys of some rows, each where it comes up first. -/
def keys (vars : List Var) (l : List Binding) : List (List (Option Term)) :=
  firsts [] (l.map (groupKey vars))

/-- The rows with a key, in order. -/
def withKey (vars : List Var) (l : List Binding) (k : List (Option Term)) : List Binding :=
  l.filter fun b => groupKey vars b == k

/-- The partition of some rows by their keys. -/
def parts (vars : List Var) (l : List Binding) : List (List (Option Term) × List Binding) :=
  (keys vars l).map fun k => (k, withKey vars l k)

variable {vars : List Var} {l : List Binding} {k : List (Option Term)}

theorem nodup_keys (vars : List Var) (l : List Binding) : (keys vars l).Nodup := nodup_firsts _ _

theorem mem_keys : k ∈ keys vars l ↔ ∃ b ∈ l, groupKey vars b = k := by
  rw [keys, mem_firsts, List.mem_map]
  exact and_iff_left List.not_mem_nil

theorem keys_concat (vars : List Var) (l : List Binding) (b : Binding) :
    keys vars (l ++ [b]) =
      if groupKey vars b ∈ keys vars l then keys vars l else keys vars l ++ [groupKey vars b] := by
  have hmem : groupKey vars b ∈ l.map (groupKey vars) ↔ groupKey vars b ∈ keys vars l := by
    rw [keys, mem_firsts]
    exact (and_iff_left List.not_mem_nil).symm
  rw [keys, List.map_append, List.map_singleton, firsts_concat]
  by_cases hb : groupKey vars b ∈ keys vars l
  · rw [if_pos (hmem.2 hb), if_pos hb, keys]
  · rw [if_neg (mt hmem.1 hb), if_neg hb, keys]

theorem withKey_concat (vars : List Var) (l : List Binding) (b : Binding)
    (k : List (Option Term)) :
    withKey vars (l ++ [b]) k = withKey vars l k ++ if groupKey vars b = k then [b] else [] := by
  rw [withKey, List.filter_append]
  by_cases hk : groupKey vars b = k <;> simp [withKey, hk]

theorem withKey_eq_nil (h : k ∉ keys vars l) : withKey vars l k = [] := by
  refine List.filter_eq_nil_iff.2 fun b hb hk => h ?_
  exact mem_keys.2 ⟨b, hb, beq_iff_eq.1 hk⟩

/-- What the loop keeps true: the groups are the partition of the rows so far, and the index gives
the place of each key among them. -/
structure Slots.Sound (vars : List Var) (l : List Binding) (s : Slots) : Prop where
  groups : s.groups = parts vars l
  index : ∀ k i, s.index.lookup k = some i ↔ (keys vars l)[i]? = some k

variable {s : Slots}

theorem Slots.sound_nil (vars : List Var) : Sound vars [] {} :=
  ⟨rfl, fun k i => by simp [keys, firsts]⟩

/-- A row with a known key goes behind the rows of its group. -/
theorem Slots.Sound.enter_known (h : s.Sound vars l) (b : Binding) {i : Nat}
    (hi : s.index.lookup (groupKey vars b) = some i) : (s.enter vars b).Sound vars (l ++ [b]) := by
  have hkey : (keys vars l)[i]? = some (groupKey vars b) := (h.index _ i).1 hi
  have hkeys : keys vars (l ++ [b]) = keys vars l := by
    rw [keys_concat, if_pos (List.mem_of_getElem? hkey)]
  have henter : s.enter vars b =
      { s with groups := s.groups.modify i fun g => (g.1, g.2 ++ [b]) } := by
    rw [Slots.enter, hi]
  rw [henter]
  refine ⟨?_, fun k j => by rw [hkeys]; exact h.index k j⟩
  -- Both lists have the same keys, so it is enough to compare place by place.
  refine List.ext_getElem? fun j => ?_
  rw [List.getElem?_modify, h.groups, parts, parts, hkeys, List.getElem?_map, List.getElem?_map]
  cases hj : (keys vars l)[j]? with
  | none => rfl
  | some k =>
    have hplace : i = j ↔ groupKey vars b = k := by
      constructor
      · rintro rfl
        exact Option.some.inj (hkey.symm.trans hj)
      · rintro rfl
        have hlt : i < (keys vars l).length := (List.getElem?_eq_some_iff.1 hkey).1
        exact (List.getElem?_inj hlt (nodup_keys vars l)).1 (hkey.trans hj.symm)
    simp only [Option.map_some, Option.map_eq_map, withKey_concat]
    by_cases hk : groupKey vars b = k
    · rw [if_pos (hplace.2 hk), if_pos hk]
    · rw [if_neg (mt hplace.1 hk), if_neg hk, List.append_nil]

/-- A row with a new key starts a group behind the others. -/
theorem Slots.Sound.enter_new (h : s.Sound vars l) (b : Binding)
    (hnone : s.index.lookup (groupKey vars b) = none) : (s.enter vars b).Sound vars (l ++ [b]) := by
  have hkey : groupKey vars b ∉ keys vars l := by
    intro hmem
    obtain ⟨i, hi⟩ := List.mem_iff_getElem?.1 hmem
    rw [(h.index _ i).2 hi] at hnone
    cases hnone
  have hkeys : keys vars (l ++ [b]) = keys vars l ++ [groupKey vars b] := by
    rw [keys_concat, if_neg hkey]
  have hlen : s.groups.length = (keys vars l).length := by rw [h.groups, parts, List.length_map]
  have henter : s.enter vars b =
      { index := (groupKey vars b, s.groups.length) :: s.index
        groups := s.groups ++ [(groupKey vars b, [b])] } := by
    rw [Slots.enter, hnone]
  rw [henter]
  constructor
  · have hold : ∀ k ∈ keys vars l, (k, withKey vars (l ++ [b]) k) = (k, withKey vars l k) := by
      intro k hk
      have hne : groupKey vars b ≠ k := fun e => hkey (e ▸ hk)
      rw [withKey_concat, if_neg hne, List.append_nil]
    show s.groups ++ [(groupKey vars b, [b])] = _
    rw [h.groups, parts, parts, hkeys, List.map_append, List.map_congr_left hold,
      List.map_singleton, withKey_concat, withKey_eq_nil hkey, if_pos rfl, List.nil_append]
  · intro k i
    rw [hkeys, List.lookup_cons, List.getElem?_append, hlen]
    by_cases hk : k = groupKey vars b
    · subst hk
      have hnot : (keys vars l)[i]? ≠ some (groupKey vars b) := fun hi =>
        hkey (List.mem_of_getElem? hi)
      simp only [beq_self_eq_true]
      split
      · rename_i hlt
        constructor
        · intro hi
          exact absurd (Option.some.inj hi) (Nat.ne_of_gt hlt)
        · exact fun hi => absurd hi hnot
      · rename_i hge
        rw [List.getElem?_singleton]
        constructor
        · intro hi
          rw [Option.some.inj hi, Nat.sub_self, if_pos rfl]
        · intro hi
          split at hi
          · rename_i hz
            exact congrArg some (by omega)
          · cases hi
    · have hbeq : (k == groupKey vars b) = false := beq_eq_false_iff_ne.2 hk
      rw [hbeq]
      show s.index.lookup k = some i ↔ _
      rw [h.index]
      split
      · rfl
      · rename_i hge
        rw [List.getElem?_singleton, List.getElem?_eq_none (Nat.not_lt.1 hge)]
        split
        · simp [Ne.symm hk]
        · rfl

theorem Slots.Sound.enter (h : s.Sound vars l) (b : Binding) :
    (s.enter vars b).Sound vars (l ++ [b]) := by
  cases hi : s.index.lookup (groupKey vars b) with
  | some i => exact h.enter_known b hi
  | none => exact h.enter_new b hi

theorem Slots.Sound.foldl (h : s.Sound vars l) (m : List Binding) :
    (m.foldl (Slots.enter vars) s).Sound vars (l ++ m) := by
  induction m generalizing s l with
  | nil => rwa [List.append_nil]
  | cons b m ih =>
    rw [List.append_cons]
    exact ih (h.enter b)

/-- The loop gives the partition, and one empty group where there is nothing to part by and nothing
to part. -/
theorem groups_eq (vars : List Var) (l : List Binding) :
    groups vars l = if vars = [] ∧ l = [] then [([], [])] else parts vars l := by
  have hfilled : (l.foldl (Slots.enter vars) {}).groups = parts vars l :=
    ((Slots.sound_nil vars).foldl l).groups
  have hempty : parts vars l = [] ↔ l = [] := by
    rw [parts, List.map_eq_nil_iff]
    constructor
    · intro hk
      refine List.eq_nil_iff_forall_not_mem.2 fun b hb => ?_
      exact List.not_mem_nil (hk ▸ mem_keys.2 ⟨b, hb, rfl⟩)
    · rintro rfl
      rfl
  unfold groups
  rw [hfilled]
  refine if_congr ?_ rfl rfl
  rw [Bool.and_eq_true, List.isEmpty_iff, List.isEmpty_iff, hempty, and_comm]

/-- Picking the members of each key in turn loses nothing and takes nothing twice. -/
theorem flatMap_filter_perm {α κ : Type} [DecidableEq κ] (f : α → κ) {ks : List κ} (hn : ks.Nodup)
    {l : List α} (h : ∀ a ∈ l, f a ∈ ks) : (ks.flatMap fun k => l.filter fun a => f a = k).Perm l := by
  induction ks generalizing l with
  | nil =>
    have hl : l = [] := List.eq_nil_iff_forall_not_mem.2 fun a ha => List.not_mem_nil (h a ha)
    rw [hl]
    rfl
  | cons k ks ih =>
    obtain ⟨hk, hn⟩ := List.nodup_cons.1 hn
    -- The other keys find their members among those that are left.
    have hrest : ∀ j ∈ ks, (l.filter fun a => f a = j) =
        (l.filter fun a => !(f a = k)).filter fun a => f a = j := by
      intro j hj
      rw [List.filter_filter]
      refine List.filter_congr fun a _ => ?_
      by_cases ha : f a = j
      · have hne : f a ≠ k := fun e => hk ((ha.symm.trans e) ▸ hj)
        simp [ha, ha ▸ hne]
      · simp [ha]
    have hleft : ∀ a ∈ l.filter fun a => !(f a = k), f a ∈ ks := by
      intro a ha
      obtain ⟨ha, hne⟩ := List.mem_filter.1 ha
      exact (List.mem_cons.1 (h a ha)).resolve_left fun e => by simp [e] at hne
    rw [List.flatMap_cons, List.flatMap_congr hrest]
    exact ((ih hn hleft).append_left _).trans (List.filter_append_perm _ l)

/-- The groups of some rows, told from the rows: every key that a row has, and none twice, in the
order in which the rows bring them up, each with all rows that have it, in order. -/
structure Partition (vars : List Var) (l : List Binding)
    (gs : List (List (Option Term) × List Binding)) : Prop where
  apart : (gs.map (·.1)).Nodup
  key : ∀ k, k ∈ gs.map (·.1) ↔
    (∃ b ∈ l, groupKey vars b = k) ∨ vars = [] ∧ l = [] ∧ k = []
  ordered : (gs.map (·.1)).Pairwise fun j k =>
    (l.map (groupKey vars)).idxOf j < (l.map (groupKey vars)).idxOf k
  members : ∀ g ∈ gs, g.2 = l.filter fun b => groupKey vars b = g.1

theorem map_fst_parts (vars : List Var) (l : List Binding) :
    (parts vars l).map (·.1) = keys vars l := by
  rw [parts, List.map_map]
  exact List.map_id _

theorem partition_groups (vars : List Var) (l : List Binding) :
    Partition vars l (groups vars l) := by
  rw [groups_eq]
  split
  · rename_i hempty
    obtain ⟨rfl, rfl⟩ := hempty
    refine ⟨List.nodup_singleton _, fun k => ?_, List.pairwise_singleton _ _, fun g hg => ?_⟩
    · simp
    · rw [List.mem_singleton.1 hg]
      rfl
  · rename_i hempty
    refine ⟨?_, fun k => ?_, ?_, fun g hg => ?_⟩
    · rw [map_fst_parts]
      exact nodup_keys vars l
    · rw [map_fst_parts, mem_keys]
      exact (or_iff_left fun hk => hempty ⟨hk.1, hk.2.1⟩).symm
    · rw [map_fst_parts]
      exact firsts_pairwise_idxOf [] _
    · obtain ⟨k, -, rfl⟩ := List.mem_map.1 hg
      refine List.filter_congr fun b _ => ?_
      by_cases hb : groupKey vars b = k <;> simp [hb]

namespace Partition

variable {gs : List (List (Option Term) × List Binding)}

/-- Every row is in the group with its key and in no other. -/
theorem existsUnique (h : Partition vars l gs) {b : Binding} (hb : b ∈ l) :
    ∃! g, g ∈ gs ∧ b ∈ g.2 := by
  obtain ⟨g, hg, hkey⟩ := List.mem_map.1 ((h.key (groupKey vars b)).2 (.inl ⟨b, hb, rfl⟩))
  refine ⟨g, ⟨hg, ?_⟩, ?_⟩
  · rw [h.members g hg]
    exact List.mem_filter.2 ⟨hb, decide_eq_true hkey.symm⟩
  · rintro g' ⟨hg', hb'⟩
    rw [h.members g' hg'] at hb'
    have hkey' : groupKey vars b = g'.1 := of_decide_eq_true (List.mem_filter.1 hb').2
    exact List.inj_on_of_nodup_map h.apart hg' hg (hkey'.symm.trans hkey.symm)

/-- The groups together hold the rows, each as often as it came. -/
theorem flatMap_perm (h : Partition vars l gs) : (gs.flatMap (·.2)).Perm l := by
  have hmembers : (gs.flatMap (·.2)) =
      (gs.map (·.1)).flatMap fun k => l.filter fun b => groupKey vars b = k := by
    rw [List.flatMap_map]
    exact List.flatMap_congr fun g hg => h.members g hg
  rw [hmembers]
  exact flatMap_filter_perm (groupKey vars) h.apart fun b hb => (h.key _).2 (.inl ⟨b, hb, rfl⟩)

end Partition

end SparqlAlgebra.Rows
