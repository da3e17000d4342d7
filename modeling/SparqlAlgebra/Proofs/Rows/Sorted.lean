import SparqlAlgebra.Proofs.Term.Order
import SparqlAlgebra.Rows.Basic

/-!
What sorting does to rows: all of them come out, those with the lesser keys first, and those that no
key tells apart in the order in which they came. This rests on the order of terms, which has to be
transitive on the values that come up.
-/

namespace SparqlAlgebra

section MergeSort

variable {α : Type} {le : α → α → Bool} {l k : List α}

theorem map_mergeSort_attach (le : α → α → Bool) (l : List α) :
    (l.attach.mergeSort fun a b => le a.1 b.1).map Subtype.val = l.mergeSort le := by
  rw [List.map_mergeSort (s := le) fun _ _ _ _ => rfl, List.attach_map_subtype_val]

/-- A sort needs the laws of an order on the elements of the list only. -/
theorem pairwise_mergeSort_on (htrans : ∀ a ∈ l, ∀ b ∈ l, ∀ c ∈ l, le a b → le b c → le a c)
    (htotal : ∀ a b, le a b || le b a) : (l.mergeSort le).Pairwise (le · ·) := by
  have hsorted : (l.attach.mergeSort fun a b => le a.1 b.1).Pairwise fun a b => le a.1 b.1 :=
    List.pairwise_mergeSort (fun a b c => htrans a.1 a.2 b.1 b.2 c.1 c.2)
      (fun a b => htotal a.1 b.1) _
  rw [← map_mergeSort_attach]
  exact List.pairwise_map.2 hsorted

/-- What is in order before a sort keeps its order. -/
theorem sublist_mergeSort_on (htrans : ∀ a ∈ l, ∀ b ∈ l, ∀ c ∈ l, le a b → le b c → le a c)
    (htotal : ∀ a b, le a b || le b a) (hk : k.Pairwise (le · ·)) (hkl : k.Sublist l) :
    k.Sublist (l.mergeSort le) := by
  rw [← l.attach_map_subtype_val, List.sublist_map_iff] at hkl
  obtain ⟨k, hkl, rfl⟩ := hkl
  have hkept : k.Sublist (l.attach.mergeSort fun a b => le a.1 b.1) :=
    List.sublist_mergeSort (fun a b c => htrans a.1 a.2 b.1 b.2 c.1 c.2)
      (fun a b => htotal a.1 b.1) (List.pairwise_map.1 hk) hkl
  rw [← map_mergeSort_attach]
  exact hkept.map _

/-- Elements that are in order in both directions are not moved against each other. -/
theorem filter_mergeSort_on (htrans : ∀ a ∈ l, ∀ b ∈ l, ∀ c ∈ l, le a b → le b c → le a c)
    (htotal : ∀ a b, le a b || le b a) {p : α → Bool}
    (hp : ∀ a ∈ l, ∀ b ∈ l, p a → p b → le a b) : (l.mergeSort le).filter p = l.filter p := by
  have hpairwise : (l.filter p).Pairwise (le · ·) := by
    refine List.pairwise_of_forall_mem_list fun a ha b hb => ?_
    obtain ⟨ha, hpa⟩ := List.mem_filter.1 ha
    obtain ⟨hb, hpb⟩ := List.mem_filter.1 hb
    exact hp a ha b hb hpa hpb
  have hsub : (l.filter p).Sublist ((l.mergeSort le).filter p) := by
    have hfilter := (sublist_mergeSort_on htrans htotal hpairwise List.filter_sublist).filter p
    simpa only [List.filter_filter, Bool.and_self] using hfilter
  exact (hsub.eq_of_length ((List.mergeSort_perm l le).filter p).length_eq.symm).symm

end MergeSort

namespace Direction

variable {d : Direction} {a b c : Option Term} {l : List (Option Term)}

theorem cmp_swap (d : Direction) (a b : Option Term) : d.cmp b a = (d.cmp a b).swap := by
  cases d with
  | ascending => exact Term.sortCmp?_swap a b
  | descending => exact congrArg Ordering.swap (Term.sortCmp?_swap a b)

theorem cmp_eq_eq : d.cmp a b = .eq ↔ a = b := by
  cases d with
  | ascending => exact Term.sortCmp?_eq_eq
  | descending => exact Ordering.swap_eq_eq.trans Term.sortCmp?_eq_eq

theorem cmp_antisymm (hab : d.cmp a b ≠ .gt) (hba : d.cmp b a ≠ .gt) : a = b := by
  rw [cmp_swap d a b, Ne, Ordering.swap_eq_gt] at hba
  cases h : d.cmp a b with
  | lt => exact absurd h hba
  | eq => exact cmp_eq_eq.1 h
  | gt => exact absurd h hab

theorem cmp_trans (h : Term.SortTransOn l) (ha : a ∈ l) (hb : b ∈ l) (hc : c ∈ l)
    (hab : d.cmp a b ≠ .gt) (hbc : d.cmp b c ≠ .gt) : d.cmp a c ≠ .gt := by
  cases d with
  | ascending => exact h a ha b hb c hc hab hbc
  | descending =>
    have hflip (x y : Option Term) : descending.cmp x y = Term.sortCmp? y x :=
      (Term.sortCmp?_swap x y).symm
    rw [hflip] at hab hbc ⊢
    exact h c hc b hb a ha hbc hab

end Direction

/-- The value of a sort key on a row; a key that fails counts as unbound. -/
def SortKey.value (fs : Functions) (k : SortKey) (b : Binding) : Option Term :=
  (k.expr.eval fs b).toOption

namespace Rows

variable {fs : Functions} {keys : List SortKey} {b c d : Binding} {l : List Binding}

/-- The comparison of rows that the keys make. -/
def keysCmp (fs : Functions) (keys : List SortKey) (b c : Binding) : Ordering :=
  sortCmp (keys.map (·.direction)) (sortValues fs keys b) (sortValues fs keys c)

/-- A row comes before another at the first key on which they differ, in the direction of it. -/
def Precedes (fs : Functions) (keys : List SortKey) (b c : Binding) : Prop :=
  ∃ before k after, keys = before ++ k :: after ∧
    (∀ j ∈ before, Term.sortCmp? (j.value fs b) (j.value fs c) = .eq) ∧
    k.direction.cmp (k.value fs b) (k.value fs c) = .lt

/-- No key tells the rows apart. -/
def Tied (fs : Functions) (keys : List SortKey) (b c : Binding) : Prop :=
  ∀ k ∈ keys, Term.sortCmp? (k.value fs b) (k.value fs c) = .eq

instance (fs : Functions) (keys : List SortKey) (b c : Binding) : Decidable (Tied fs keys b c) :=
  inferInstanceAs (Decidable (∀ k ∈ keys, Term.sortCmp? (k.value fs b) (k.value fs c) = .eq))

theorem keysCmp_cons (fs : Functions) (k : SortKey) (keys : List SortKey) (b c : Binding) :
    keysCmp fs (k :: keys) b c =
      (k.direction.cmp (k.value fs b) (k.value fs c)).then (keysCmp fs keys b c) := rfl

theorem keysCmp_swap (fs : Functions) (keys : List SortKey) (b c : Binding) :
    keysCmp fs keys c b = (keysCmp fs keys b c).swap := by
  induction keys with
  | nil => rfl
  | cons k keys ih => rw [keysCmp_cons, keysCmp_cons, Ordering.swap_then, ← Direction.cmp_swap, ih]

theorem keysCmp_eq_eq : keysCmp fs keys b c = .eq ↔ Tied fs keys b c := by
  induction keys with
  | nil => exact ⟨fun _ => nofun, fun _ => rfl⟩
  | cons k keys ih =>
    rw [keysCmp_cons, Ordering.then_eq_eq, ih, Direction.cmp_eq_eq, ← Term.sortCmp?_eq_eq, Tied,
      Tied, List.forall_mem_cons]

theorem keysCmp_eq_lt : keysCmp fs keys b c = .lt ↔ Precedes fs keys b c := by
  induction keys with
  | nil => exact ⟨nofun, fun ⟨before, k, after, h, _⟩ => by simp at h⟩
  | cons k keys ih =>
    rw [keysCmp_cons, Ordering.then_eq_lt, ih]
    constructor
    · rintro (hlt | ⟨heq, before, j, after, rfl, hbefore, hj⟩)
      · exact ⟨[], k, keys, rfl, nofun, hlt⟩
      · rw [Direction.cmp_eq_eq, ← Term.sortCmp?_eq_eq] at heq
        exact ⟨k :: before, j, after, rfl, List.forall_mem_cons.2 ⟨heq, hbefore⟩, hj⟩
    · rintro ⟨before, j, after, h, hbefore, hj⟩
      cases before with
      | nil =>
        cases h
        exact .inl hj
      | cons k' before =>
        cases h
        obtain ⟨heq, hbefore⟩ := List.forall_mem_cons.1 hbefore
        rw [Term.sortCmp?_eq_eq, ← Direction.cmp_eq_eq] at heq
        exact .inr ⟨heq, before, j, after, rfl, hbefore, hj⟩

/-- At the first key that tells two of three rows apart, the order of its values decides. -/
theorem keysCmp_trans (h : ∀ k ∈ keys, Term.SortTransOn (l.map (k.value fs))) (hb : b ∈ l)
    (hc : c ∈ l) (hd : d ∈ l) (hbc : keysCmp fs keys b c ≠ .gt) (hcd : keysCmp fs keys c d ≠ .gt) :
    keysCmp fs keys b d ≠ .gt := by
  induction keys with
  | nil => exact nofun
  | cons k keys ih =>
    obtain ⟨hk, hkeys⟩ := List.forall_mem_cons.1 h
    rw [keysCmp_cons] at hbc hcd ⊢
    -- The first key is in order; if it does not tell the outer rows apart, the other keys have to.
    have hxy : k.direction.cmp (k.value fs b) (k.value fs c) ≠ .gt := fun hgt =>
      hbc (Ordering.then_eq_gt.2 (.inl hgt))
    have hyz : k.direction.cmp (k.value fs c) (k.value fs d) ≠ .gt := fun hgt =>
      hcd (Ordering.then_eq_gt.2 (.inl hgt))
    have hxz := Direction.cmp_trans hk (List.mem_map_of_mem hb) (List.mem_map_of_mem hc)
      (List.mem_map_of_mem hd) hxy hyz
    intro hgt
    rcases Ordering.then_eq_gt.1 hgt with hgt | ⟨heq, hrest⟩
    · exact hxz hgt
    -- The outer values are equal, and so is the one in the middle.
    have hbd : k.value fs b = k.value fs d := Direction.cmp_eq_eq.1 heq
    have hmid : k.value fs b = k.value fs c := by
      rw [← hbd] at hyz
      exact Direction.cmp_antisymm hxy hyz
    rw [hmid, Direction.cmp_eq_eq.2 rfl, Ordering.eq_then] at hbc
    rw [← hbd, hmid, Direction.cmp_eq_eq.2 rfl, Ordering.eq_then] at hcd
    exact ih hkeys hbc hcd hrest

theorem sort_eq (fs : Functions) (keys : List SortKey) (l : List Binding) :
    sort fs keys l = l.mergeSort fun b c => (keysCmp fs keys b c).isLE := by
  have hmap := List.map_mergeSort (l := l) (f := fun b => (sortValues fs keys b, b))
    (r := fun b c => (keysCmp fs keys b c).isLE)
    (s := fun x y => (sortCmp (keys.map (·.direction)) x.1 y.1).isLE) fun _ _ _ _ => rfl
  rw [sort, ← hmap, List.map_map]
  exact List.map_id _

theorem perm_sort (fs : Functions) (keys : List SortKey) (l : List Binding) :
    (sort fs keys l).Perm l := by
  rw [sort_eq]
  exact List.mergeSort_perm l _

theorem isLE_keysCmp_total (fs : Functions) (keys : List SortKey) (b c : Binding) :
    (keysCmp fs keys b c).isLE || (keysCmp fs keys c b).isLE := by
  rw [keysCmp_swap fs keys b c]
  cases keysCmp fs keys b c <;> rfl

theorem isLE_keysCmp_trans (h : ∀ k ∈ keys, Term.SortTransOn (l.map (k.value fs))) :
    ∀ b ∈ l, ∀ c ∈ l, ∀ d ∈ l, (keysCmp fs keys b c).isLE → (keysCmp fs keys c d).isLE →
      (keysCmp fs keys b d).isLE := by
  intro b hb c hc d hd hbc hcd
  rw [Ordering.isLE_iff_ne_gt] at hbc hcd ⊢
  exact keysCmp_trans h hb hc hd hbc hcd

/-- No row comes before one that stands ahead of it. -/
theorem pairwise_sort (h : ∀ k ∈ keys, Term.SortTransOn (l.map (k.value fs))) :
    (sort fs keys l).Pairwise fun b c => ¬ Precedes fs keys c b := by
  rw [sort_eq]
  refine (pairwise_mergeSort_on (isLE_keysCmp_trans h) (isLE_keysCmp_total fs keys)).imp ?_
  intro b c hle hlt
  rw [← keysCmp_eq_lt, keysCmp_swap, Ordering.swap_eq_lt] at hlt
  rw [hlt] at hle
  cases hle

/-- Rows that no key tells apart stay in the order in which they came. -/
theorem filter_tied_sort (h : ∀ k ∈ keys, Term.SortTransOn (l.map (k.value fs))) (b : Binding) :
    (sort fs keys l).filter (Tied fs keys b ·) = l.filter (Tied fs keys b ·) := by
  rw [sort_eq]
  refine filter_mergeSort_on (isLE_keysCmp_trans h) (isLE_keysCmp_total fs keys) ?_
  intro c _ d _ hc hd
  have htied : Tied fs keys c d := fun k hk => by
    have hbc := Term.sortCmp?_eq_eq.1 (of_decide_eq_true hc k hk)
    have hbd := Term.sortCmp?_eq_eq.1 (of_decide_eq_true hd k hk)
    exact Term.sortCmp?_eq_eq.2 (hbc.symm.trans hbd)
  rw [keysCmp_eq_eq.2 htied]
  rfl

end Rows

end SparqlAlgebra
