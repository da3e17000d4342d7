import Mathlib.Algebra.GroupWithZero.Nat
import SparqlAlgebra.Proofs.Path.Closure
import SparqlAlgebra.Proofs.Pattern.Extend

/-!
Walking a path forwards and backwards counts the same walks, so it does not matter from which end a
path pattern is matched. Only a path that may have length zero relates a term outside the graph,
and only to itself; this is the one case in which a row that fixes an end of the pattern finds more
than the pattern finds by itself.
-/

namespace SparqlAlgebra

open Relation

namespace Path

/-- Whether a walk along the path may have length zero. -/
def nullable : Path → Bool
  | link _ => false
  | inverse p => nullable p
  | sequence p q => nullable p && nullable q
  | alternative p q => nullable p || nullable q
  | zeroOrOne _ => true
  | zeroOrMore _ => true
  | oneOrMore p => nullable p

theorem mem_appendNew {α : Type} [DecidableEq α] {l new : List α} {x : α} :
    x ∈ appendNew l new ↔ x ∈ l ∨ x ∈ new := by
  induction new generalizing l with
  | nil => simp [appendNew]
  | cons y new ih =>
    show x ∈ appendNew (if y ∈ l then l else l ++ [y]) new ↔ _
    rw [ih]
    split
    · rename_i hy
      rw [List.mem_cons]
      constructor
      · exact fun h => h.imp_right .inr
      · rintro (h | rfl | h)
        · exact .inl h
        · exact .inl hy
        · exact .inr h
    · simp only [List.mem_append, List.mem_cons, List.not_mem_nil, or_false, or_assoc]

theorem nodup_appendNew {α : Type} [DecidableEq α] {l : List α} (h : l.Nodup) (new : List α) :
    (appendNew l new).Nodup := by
  induction new generalizing l with
  | nil => exact h
  | cons y new ih =>
    show (appendNew (if y ∈ l then l else l ++ [y]) new).Nodup
    split
    · exact ih h
    · rename_i hy
      rw [← List.concat_eq_append]
      exact ih (h.concat hy)

variable {g : Graph}

theorem mem_nodes_of_neighbours {predicate : String} {forward : Bool} {x o : Term}
    (h : o ∈ g.neighbours predicate forward x) : x ∈ g.nodes ∧ o ∈ g.nodes := by
  unfold Graph.neighbours at h
  split at h
  · obtain ⟨t, ht, rfl⟩ := List.mem_map.1 h
    obtain ⟨ht, hs, -, -⟩ := Graph.mem_find.1 ht
    have hx : x = t.subject := by simpa [Graph.fits] using hs
    exact ⟨Graph.mem_nodes.2 ⟨t, ht, .inl hx⟩, Graph.mem_nodes.2 ⟨t, ht, .inr rfl⟩⟩
  · obtain ⟨t, ht, rfl⟩ := List.mem_map.1 h
    obtain ⟨ht, -, -, ho⟩ := Graph.mem_find.1 ht
    have hx : x = t.object := by simpa [Graph.fits] using ho
    exact ⟨Graph.mem_nodes.2 ⟨t, ht, .inr hx⟩, Graph.mem_nodes.2 ⟨t, ht, .inl rfl⟩⟩

/-- A walk stays inside the graph, unless its path may have length zero and it goes nowhere. -/
def Stays (g : Graph) (zero : Bool) (x o : Term) : Prop :=
  (zero = true ∧ o = x) ∨ (x ∈ g.nodes ∧ o ∈ g.nodes)

theorem Stays.trans {a b : Bool} {x y o : Term} (h : Stays g a x y) (k : Stays g b y o) :
    Stays g (a && b) x o := by
  rcases h with ⟨ha, rfl⟩ | ⟨hx, hy⟩
  · rcases k with ⟨hb, rfl⟩ | ho
    · exact .inl ⟨by simp [ha, hb], rfl⟩
    · exact .inr ho
  · rcases k with ⟨-, rfl⟩ | ⟨-, ho⟩
    · exact .inr ⟨hx, hy⟩
    · exact .inr ⟨hx, ho⟩

theorem Stays.mono {a b : Bool} {x o : Term} (h : Stays g a x o) (hab : a = true → b = true) :
    Stays g b x o :=
  h.imp_left fun h => ⟨hab h.1, h.2⟩

theorem Stays.steps {next : Term → List Term} {a b : Bool} {x y o : Term} (h : Stays g a x y)
    (hn : ∀ y, ∀ z ∈ next y, Stays g b y z) (hyo : ReflTransGen (Graph.Steps next) y o) :
    Stays g a x o := by
  induction hyo with
  | refl => exact h
  | tail _ hz ih => exact (ih.trans ((hn _ _ hz).mono fun _ => rfl)).mono (by simp)

theorem stays_of_mem_ends {p : Path} {forward : Bool} {x o : Term} (h : o ∈ p.ends g forward x) :
    Stays g p.nullable x o := by
  -- The induction is on the path, for both directions at once.
  induction p generalizing forward x o with
  | link predicate => exact .inr (mem_nodes_of_neighbours h)
  | inverse p ih => exact ih h
  | sequence p q hp hq =>
    cases forward with
    | true =>
      obtain ⟨y, hy, ho⟩ := List.mem_flatMap.1 h
      exact (hp hy).trans (hq ho)
    | false =>
      obtain ⟨y, hy, ho⟩ := List.mem_flatMap.1 h
      rw [nullable, Bool.and_comm]
      exact (hq hy).trans (hp ho)
  | alternative p q hp hq =>
    rcases List.mem_append.1 h with h | h
    · exact (hp h).mono fun hn => by simp [nullable, hn]
    · exact (hq h).mono fun hn => by simp [nullable, hn]
  | zeroOrOne p ih =>
    rcases mem_appendNew.1 h with h | h
    · exact .inl ⟨rfl, List.mem_singleton.1 h⟩
    · exact (ih h).mono fun _ => rfl
  | zeroOrMore p ih =>
    -- The closure starts at `x` itself.
    obtain ⟨y, hy, ho⟩ := Graph.reachable_of_mem_reach h
    rw [List.mem_singleton.1 hy] at ho
    have hx : Stays g true x x := .inl ⟨rfl, rfl⟩
    exact hx.steps (fun y z hz => ih hz) ho
  | oneOrMore p ih =>
    obtain ⟨y, hy, ho⟩ := Graph.reachable_of_mem_reach h
    exact (ih hy).steps (fun y z hz => ih hz) ho

/-- A walk ends where it starts or at a node, so closures of walks have fuel enough. -/
theorem eq_or_mem_nodes_of_mem_ends {p : Path} {forward : Bool} (x o : Term)
    (h : o ∈ p.ends g forward x) : o = x ∨ o ∈ g.nodes :=
  (stays_of_mem_ends h).imp (fun h => h.2) (fun h => h.2)

theorem mem_closure_ends {p : Path} {forward : Bool} {seeds : List Term} {o : Term} :
    o ∈ g.closure (fun y => p.ends g forward y) seeds ↔
      ∃ x ∈ seeds, ReflTransGen (Graph.Steps fun y => p.ends g forward y) x o :=
  Graph.mem_closure eq_or_mem_nodes_of_mem_ends

theorem mem_ends_zeroOrMore {p : Path} {forward : Bool} {x o : Term} :
    o ∈ (zeroOrMore p).ends g forward x ↔
      ReflTransGen (Graph.Steps fun y => p.ends g forward y) x o := by
  rw [ends, mem_closure_ends]
  simp

theorem mem_ends_oneOrMore {p : Path} {forward : Bool} {x o : Term} :
    o ∈ (oneOrMore p).ends g forward x ↔
      TransGen (Graph.Steps fun y => p.ends g forward y) x o := by
  rw [ends, mem_closure_ends, TransGen.head'_iff]
  rfl

theorem self_mem_ends {p : Path} (h : p.nullable = true) (forward : Bool) (x : Term) :
    x ∈ p.ends g forward x := by
  induction p generalizing forward x with
  | link predicate => cases h
  | inverse p ih => exact ih h (!forward) x
  | sequence p q hp hq =>
    obtain ⟨hnp, hnq⟩ := Bool.and_eq_true_iff.1 h
    cases forward with
    | true => exact List.mem_flatMap.2 ⟨x, hp hnp true x, hq hnq true x⟩
    | false => exact List.mem_flatMap.2 ⟨x, hq hnq false x, hp hnp false x⟩
  | alternative p q hp hq =>
    rcases Bool.or_eq_true_iff.1 h with h | h
    · exact List.mem_append_left _ (hp h forward x)
    · exact List.mem_append_right _ (hq h forward x)
  | zeroOrOne p ih => exact mem_appendNew.2 (.inl List.mem_cons_self)
  | zeroOrMore p ih => exact mem_ends_zeroOrMore.2 .refl
  | oneOrMore p ih => exact mem_ends_oneOrMore.2 (.single (ih h forward x))

theorem sum_count_cons (a : Term) (k l : List Term) :
    (l.map fun y => (a :: k).count y).sum = (l.map fun y => k.count y).sum + l.count a := by
  induction l with
  | nil => rfl
  | cons b l ih =>
    rw [List.map_cons, List.sum_cons, ih, List.map_cons, List.sum_cons, List.count_cons,
      List.count_cons]
    simp only [beq_iff_eq, eq_comm (a := a)]
    omega

/-- Counting the common members of two lists, with repetitions, from either list. -/
theorem sum_count_comm (k l : List Term) :
    (k.map fun y => l.count y).sum = (l.map fun y => k.count y).sum := by
  induction k with
  | nil => simp
  | cons a k ih => rw [List.map_cons, List.sum_cons, ih, sum_count_cons, Nat.add_comm]

theorem count_neighbours (predicate : String) (s o : Term) :
    (g.neighbours predicate true s).count o = (g.neighbours predicate false o).count s := by
  simp only [Graph.neighbours, if_true, Bool.false_eq_true, if_false, Graph.find]
  rw [List.count, List.countP_map, List.countP_filter, List.count, List.countP_map,
    List.countP_filter]
  refine List.countP_congr fun t _ => ?_
  simp only [Function.comp, Graph.fits, Option.all_some, Option.all_none, Bool.and_eq_true,
    beq_iff_eq, and_true, true_and]
  constructor
  · rintro ⟨rfl, rfl, hp⟩
    exact ⟨rfl, hp, rfl⟩
  · rintro ⟨rfl, hp, rfl⟩
    exact ⟨rfl, rfl, hp⟩

theorem count_eq_of_nodup {k l : List Term} {x y : Term} (hk : k.Nodup) (hl : l.Nodup)
    (h : x ∈ k ↔ y ∈ l) : k.count x = l.count y := by
  by_cases hx : x ∈ k
  · rw [List.count_eq_one_of_mem hk hx, List.count_eq_one_of_mem hl (h.1 hx)]
  · rw [List.count_eq_zero_of_not_mem hx, List.count_eq_zero_of_not_mem (mt h.2 hx)]

theorem steps_swap {next back : Term → List Term}
    (h : ∀ x y, (next x).count y = (back y).count x) :
    Graph.Steps next = Function.swap (Graph.Steps back) := by
  funext x y
  show Graph.Steps next x y = Graph.Steps back y x
  rw [Graph.Steps, Graph.Steps, ← List.count_pos_iff, h, List.count_pos_iff]

/-- The walks from `s` to `o` are as many as the walks back from `o` to `s`. -/
theorem count_ends (p : Path) (s o : Term) :
    (p.ends g true s).count o = (p.ends g false o).count s := by
  induction p generalizing s o with
  | link predicate => exact count_neighbours predicate s o
  | inverse p ih => exact (ih o s).symm
  | sequence p q hp hq =>
    -- Both directions count the pairs of a walk along `p` and a walk along `q` that meet.
    have hfwd : ((sequence p q).ends g true s).count o =
        ((p.ends g true s).map fun y => (q.ends g false o).count y).sum := by
      rw [ends, List.count_flatMap]
      exact congrArg List.sum (List.map_congr_left fun y _ => hq y o)
    have hbwd : ((sequence p q).ends g false o).count s =
        ((q.ends g false o).map fun y => (p.ends g true s).count y).sum := by
      rw [ends, List.count_flatMap]
      exact congrArg List.sum (List.map_congr_left fun y _ => (hp s y).symm)
    rw [hfwd, hbwd, sum_count_comm]
  | alternative p q hp hq => rw [ends, ends, List.count_append, List.count_append, hp, hq]
  | zeroOrOne p ih =>
    refine count_eq_of_nodup (nodup_appendNew (List.nodup_singleton _) _)
      (nodup_appendNew (List.nodup_singleton _) _) ?_
    rw [ends, ends, mem_appendNew, mem_appendNew, List.mem_singleton, List.mem_singleton, eq_comm,
      ← List.count_pos_iff, ih, List.count_pos_iff]
  | zeroOrMore p ih =>
    -- A closure lists each end once, so only reachability is left to compare.
    refine count_eq_of_nodup (Graph.nodup_closure _ _ _) (Graph.nodup_closure _ _ _) ?_
    rw [mem_ends_zeroOrMore, mem_ends_zeroOrMore, steps_swap ih, reflTransGen_swap]
  | oneOrMore p ih =>
    refine count_eq_of_nodup (Graph.nodup_closure _ _ _) (Graph.nodup_closure _ _ _) ?_
    rw [mem_ends_oneOrMore, mem_ends_oneOrMore, steps_swap ih, transGen_swap]

end Path

end SparqlAlgebra
