import SparqlAlgebra.Json.Pattern
import SparqlAlgebra.Proofs.Binding.Merge
import SparqlAlgebra.Proofs.Json.Decode

/-!
Terms, patterns, paths, rows and tables are read as they were written.
-/

namespace SparqlAlgebra

open Json

theorem Var.restores : Restores Var.toJson Var.ofJson? := fun _ => rfl

/-- A datatype and a language tag that are left out are read as absent. -/
theorem Literal.restores : Restores Literal.toJson Literal.ofJson? := by
  rintro ⟨lexical, _ | datatype, _ | lang⟩
  all_goals
    simp [Literal.toJson, Literal.ofJson?, record_obj, List.lookup_cons, required, withDefault,
      nullable?, string?]

theorem Term.restores : Restores Term.toJson Term.ofJson? := by
  intro t
  cases t with
  | iri v => simp [Term.toJson, Term.ofJson?, tagged_obj, required, unit?, variant?, string?]
  | blank l => simp [Term.toJson, Term.ofJson?, tagged_obj, required, unit?, variant?, string?]
  | literal l =>
    simp [Term.toJson, Term.ofJson?, tagged_obj, required, unit?, variant?, Literal.restores l]

theorem Slot.restores : Restores Slot.toJson Slot.ofJson? := by
  intro s
  cases s with
  | var v => simp [Slot.toJson, Slot.ofJson?, Var.restores v]
  | term t => simp [Slot.toJson, Slot.ofJson?, Term.restores t]

theorem Slot.toJson_ne_null (s : Slot) : s.toJson ≠ .null := by
  cases s <;> exact Json.noConfusion

theorem TriplePattern.restores : Restores TriplePattern.toJson TriplePattern.ofJson? := by
  intro t
  simp [TriplePattern.toJson, TriplePattern.ofJson?, record_obj, List.lookup_cons, required,
    Slot.restores _]

theorem BasicPattern.restores : Restores BasicPattern.toJson BasicPattern.ofJson? :=
  TriplePattern.restores.list

theorem QuadPattern.restores : Restores QuadPattern.toJson QuadPattern.ofJson? := by
  intro q
  have hgraph := Slot.restores.nullable Slot.toJson_ne_null q.graph
  simp [QuadPattern.toJson, QuadPattern.ofJson?, record_obj, List.lookup_cons, required, withDefault,
    hgraph, BasicPattern.restores _]

/-- A path is read with any depth that its value does not exceed. -/
theorem Path.read_toJson {n : Nat} {p : Path} (h : p.toJson.height ≤ n) :
    read n p.toJson = some p := by
  induction n generalizing p with
  | zero => exact absurd h (Nat.not_le.2 p.toJson.height_pos)
  | succ n ih =>
    cases p with
    | link predicate => rfl
    | inverse p =>
      have hp : p.toJson.height ≤ n := by simpa [toJson] using h
      simp [toJson, read, ih hp]
    | sequence p q =>
      have hpq : p.toJson.height ≤ n ∧ q.toJson.height ≤ n := by
        simp [toJson, heightItems] at h
        omega
      simp [toJson, read, pair?, ih hpq.1, ih hpq.2]
    | alternative p q =>
      have hpq : p.toJson.height ≤ n ∧ q.toJson.height ≤ n := by
        simp [toJson, heightItems] at h
        omega
      simp [toJson, read, pair?, ih hpq.1, ih hpq.2]
    | zeroOrOne p =>
      have hp : p.toJson.height ≤ n := by simpa [toJson] using h
      simp [toJson, read, ih hp]
    | zeroOrMore p =>
      have hp : p.toJson.height ≤ n := by simpa [toJson] using h
      simp [toJson, read, ih hp]
    | oneOrMore p =>
      have hp : p.toJson.height ≤ n := by simpa [toJson] using h
      simp [toJson, read, ih hp]

theorem Path.restores : Restores Path.toJson Path.ofJson? :=
  fun _ => Path.read_toJson (Nat.le_refl _)

theorem PathPattern.restores : Restores PathPattern.toJson PathPattern.ofJson? := by
  intro p
  simp [PathPattern.toJson, PathPattern.ofJson?, record_obj, List.lookup_cons, required,
    Slot.restores _, Path.restores _]

theorem Argument.restores : Restores Argument.toJson Argument.ofJson? := by
  intro a
  cases a with
  | node s => simp [Argument.toJson, Argument.ofJson?, Slot.restores s]
  | list slots => simp [Argument.toJson, Argument.ofJson?, Slot.restores.list slots]

/-- The entries of a row are read in their order, and give the row again. -/
theorem Binding.restores : Restores Binding.toJson Binding.ofJson? := by
  intro b
  have hentries : (obj (b.entries.map fun e => (e.1.name, e.2.toJson))).entries? Term.ofJson? =
      some (b.entries.map fun e => (e.1.name, e.2)) := by
    show (b.entries.map fun e => (e.1.name, e.2.toJson)).mapM _ = _
    induction b.entries with
    | nil => rfl
    | cons e rest ih => simp [Term.restores e.2, ih]
  have hvars (l : List (Var × Term)) :
      (l.map fun e => (e.1.name, e.2)).map (fun f => ((⟨f.1⟩ : Var), f.2)) = l := by
    rw [List.map_map]
    exact List.map_id' l
  rw [Binding.ofJson?, Binding.toJson, hentries, Option.map_some, hvars, SortedMap.ofList_entries]

theorem Table.restores : Restores Table.toJson Table.ofJson? := by
  intro t
  simp [Table.toJson, Table.ofJson?, record_obj, List.lookup_cons, withDefault, Var.restores.list _,
    Binding.restores.list _]

end SparqlAlgebra
