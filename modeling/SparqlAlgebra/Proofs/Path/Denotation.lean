import SparqlAlgebra.Proofs.Path.Ends

/-!
What a property path denotes. A link relates the ends of the triples with its predicate, and the
operators are those on relations. Walking a path from a term comes to its end in every graph, cyclic
or not, and its ends are the terms that the relation of the path gives, in either direction.
-/

namespace SparqlAlgebra

open Relation

namespace Graph

/-- The search from a queue comes to its end: `Visits step queue seen out` lists in `out` the nodes it
visits besides those seen before, in the order of visits. Finding the successors of a node is a run
of its own, with the outcomes that `step` allows. -/
inductive Visits (step : Term → List Term → Prop) : List Term → List Term → List Term → Prop where
  | done (seen : List Term) : Visits step [] seen []
  | again {x : Term} {rest seen out : List Term} (hx : x ∈ seen) (h : Visits step rest seen out) :
    Visits step (x :: rest) seen out
  | visit {x : Term} {rest seen found out : List Term} (hx : x ∉ seen) (hs : step x found)
    (h : Visits step (rest ++ found) (x :: seen) out) : Visits step (x :: rest) seen (x :: out)

/-- A search that has fuel enough comes to its end, and finds what it would find without a bound. -/
theorem visits_iff {step : Term → List Term → Prop} (hs : ∀ x l, step x l ↔ next x = l)
    {u : List Term} {fuel : Nat} {queue seen out : List Term} (h : Fueled next u fuel queue seen) :
    Visits step queue seen out ↔ reach next fuel queue seen = out := by
  fun_induction reach next fuel queue seen generalizing out with
  | case1 fuel seen =>
    constructor
    · rintro ⟨⟩
      rfl
    · rintro rfl
      exact .done seen
  | case2 fuel seen x rest hx ih =>
    rw [← ih h.skip]
    constructor
    · intro hv
      cases hv with
      | again _ hv => exact hv
      | visit hn _ _ => exact absurd hx hn
    · exact .again hx
  | case3 seen x rest hx => exact absurd (h.unseen_lt hx) (Nat.not_lt_zero _)
  | case4 seen x rest hx fuel ih =>
    constructor
    · intro hv
      cases hv with
      | again hm _ => exact absurd hm hx
      | visit _ hf hv =>
        obtain rfl := (hs _ _).1 hf
        rw [(ih (h.visit hx)).1 hv]
    · rintro rfl
      exact .visit hx ((hs _ _).2 rfl) ((ih (h.visit hx)).2 rfl)

theorem visits_closure {g : Graph} {next : Term → List Term} {step : Term → List Term → Prop}
    (hs : ∀ x l, step x l ↔ next x = l) (hn : ∀ x, ∀ y ∈ next x, y = x ∨ y ∈ g.nodes)
    {seeds out : List Term} : Visits step seeds [] out ↔ g.closure next seeds = out :=
  visits_iff hs (fueled_closure hn seeds)

end Graph

namespace Path

/-- The relation between the terms of a graph that a path denotes. -/
def Relates (g : Graph) : Path → Term → Term → Prop
  | link predicate, s, o => ⟨s, .iri predicate, o⟩ ∈ g
  | inverse p, s, o => Relates g p o s
  | sequence p q, s, o => Comp (Relates g p) (Relates g q) s o
  | alternative p q, s, o => Relates g p s o ∨ Relates g q s o
  | zeroOrOne p, s, o => ReflGen (Relates g p) s o
  | zeroOrMore p, s, o => ReflTransGen (Relates g p) s o
  | oneOrMore p, s, o => TransGen (Relates g p) s o

/-- The finished walks along `p` from `x`, or against it when not `forward`, and the ends they find.
The closures search without a bound on their steps. -/
def Finds (g : Graph) : Path → (forward : Bool) → Term → List Term → Prop
  | link predicate, forward, x, out => g.neighbours predicate forward x = out
  | inverse p, forward, x, out => Finds g p (!forward) x out
  | sequence p q, true, x, out =>
    ∃ mids ends, Finds g p true x mids ∧ List.Forall₂ (Finds g q true) mids ends ∧
      ends.flatten = out
  | sequence p q, false, x, out =>
    ∃ mids ends, Finds g q false x mids ∧ List.Forall₂ (Finds g p false) mids ends ∧
      ends.flatten = out
  | alternative p q, forward, x, out =>
    ∃ l r, Finds g p forward x l ∧ Finds g q forward x r ∧ l ++ r = out
  | zeroOrOne p, forward, x, out => ∃ l, Finds g p forward x l ∧ appendNew [x] l = out
  | zeroOrMore p, forward, x, out => Graph.Visits (Finds g p forward) [x] [] out
  | oneOrMore p, forward, x, out =>
    ∃ seeds, Finds g p forward x seeds ∧ Graph.Visits (Finds g p forward) seeds [] out

variable {g : Graph}

theorem finds_closure {p : Path} {forward : Bool}
    (ih : ∀ x l, p.Finds g forward x l ↔ p.ends g forward x = l) {seeds out : List Term} :
    Graph.Visits (p.Finds g forward) seeds [] out ↔
      g.closure (fun y => p.ends g forward y) seeds = out :=
  Graph.visits_closure ih eq_or_mem_nodes_of_mem_ends

theorem forall₂_finds {p : Path} {forward : Bool}
    (ih : ∀ x l, p.Finds g forward x l ↔ p.ends g forward x = l) {mids : List Term}
    {ends : List (List Term)} :
    List.Forall₂ (p.Finds g forward) mids ends ↔ mids.map (p.ends g forward) = ends := by
  have hfinds : p.Finds g forward = fun y l => p.ends g forward y = l :=
    funext fun y => funext fun l => propext (ih y l)
  have heq : List.Forall₂ Eq (mids.map (p.ends g forward)) ends ↔
      mids.map (p.ends g forward) = ends := by rw [List.forall₂_eq_eq_eq]
  rw [hfinds, ← heq, List.forall₂_map_left_iff]

/-- Every walk comes to its end, with the same ends each time. -/
theorem finds_iff (p : Path) (forward : Bool) (x : Term) (out : List Term) :
    p.Finds g forward x out ↔ p.ends g forward x = out := by
  induction p generalizing forward x out with
  | link predicate => exact Iff.rfl
  | inverse p ih => exact ih (!forward) x out
  | sequence p q hp hq =>
    cases forward with
    | true => simp [Finds, ends, hp, forall₂_finds (hq true), List.flatMap]
    | false => simp [Finds, ends, hq, forall₂_finds (hp false), List.flatMap]
  | alternative p q hp hq => simp [Finds, ends, hp, hq]
  | zeroOrOne p ih => simp [Finds, ends, ih]
  | zeroOrMore p ih => exact finds_closure (ih forward)
  | oneOrMore p ih => simp [Finds, ends, ih, finds_closure (ih forward)]

theorem mem_ends_reverse {p : Path} {s o : Term} :
    o ∈ p.ends g true s ↔ s ∈ p.ends g false o := by
  rw [← List.count_pos_iff, count_ends, List.count_pos_iff]

theorem mem_neighbours {predicate : String} {s o : Term} :
    o ∈ g.neighbours predicate true s ↔ ⟨s, .iri predicate, o⟩ ∈ g := by
  rw [Graph.neighbours, if_pos rfl, List.mem_map]
  constructor
  · rintro ⟨t, ht, rfl⟩
    obtain ⟨ht, hs, hp, -⟩ := Graph.mem_find.1 ht
    have hs : s = t.subject := by simpa [Graph.fits] using hs
    have hp : .iri predicate = t.predicate := by simpa [Graph.fits] using hp
    rwa [hs, hp]
  · intro h
    exact ⟨_, Graph.mem_find.2 ⟨h, by simp [Graph.fits]⟩, rfl⟩

theorem steps_ends {p : Path} (ih : ∀ s o, o ∈ p.ends g true s ↔ p.Relates g s o) :
    (Graph.Steps fun y => p.ends g true y) = p.Relates g :=
  funext fun s => funext fun o => propext (ih s o)

theorem mem_ends_iff (p : Path) (s o : Term) : o ∈ p.ends g true s ↔ p.Relates g s o := by
  induction p generalizing s o with
  | link predicate => exact mem_neighbours
  | inverse p ih =>
    -- Against the direction the same walks are found, so the relation for `true` is enough.
    exact mem_ends_reverse.symm.trans (ih o s)
  | sequence p q hp hq =>
    rw [ends, List.mem_flatMap]
    exact exists_congr fun y => and_congr (hp s y) (hq y o)
  | alternative p q hp hq =>
    rw [ends, List.mem_append]
    exact or_congr (hp s o) (hq s o)
  | zeroOrOne p ih =>
    rw [ends, mem_appendNew, List.mem_singleton, ih]
    exact (reflGen_iff _ _ _).symm
  | zeroOrMore p ih =>
    rw [mem_ends_zeroOrMore, steps_ends ih]
    exact Iff.rfl
  | oneOrMore p ih =>
    rw [mem_ends_oneOrMore, steps_ends ih]
    exact Iff.rfl

/-- Walking a path comes to its end, whatever closures it has and whatever cycles the graph has. The
ends are the terms that the path relates to the start, forwards or against its direction, and the
closures list each of them once. -/
theorem ends_relates (g : Graph) (p : Path) (s : Term) :
    (∀ forward out, p.Finds g forward s out ↔ p.ends g forward s = out) ∧
      (∀ o, o ∈ p.ends g true s ↔ p.Relates g s o) ∧
      (∀ o, o ∈ p.ends g false s ↔ p.Relates g o s) ∧
      ∀ forward, ((zeroOrOne p).ends g forward s).Nodup ∧
        ((zeroOrMore p).ends g forward s).Nodup ∧ ((oneOrMore p).ends g forward s).Nodup := by
  refine ⟨fun forward out => finds_iff p forward s out, fun o => mem_ends_iff p s o, fun o => ?_,
    fun forward => ⟨?_, ?_, ?_⟩⟩
  · exact mem_ends_reverse.symm.trans (mem_ends_iff p o s)
  · exact nodup_appendNew (List.nodup_singleton s) _
  · exact Graph.nodup_closure _ _ _
  · exact Graph.nodup_closure _ _ _

/-- Between two terms there are as many walks along a path as there are against it. -/
theorem count_ends_reverse (g : Graph) (p : Path) (forward : Bool) (s o : Term) :
    (p.ends g forward s).count o = (p.ends g (!forward) o).count s := by
  cases forward with
  | true => exact count_ends p s o
  | false => exact (count_ends p o s).symm

end Path

end SparqlAlgebra
