import SparqlAlgebra.Json.Modifier
import SparqlAlgebra.Proofs.Json.Pattern

/-!
Expressions, sort keys and aggregates are read as they were written.
-/

namespace SparqlAlgebra

open Json

namespace Expr

theorem toJsonAll_eq_map (es : List Expr) : toJsonAll es = es.map toJson := by
  induction es with
  | nil => rfl
  | cons e es ih => rw [toJsonAll, ih, List.map_cons]

/-- No operator between operands is written like another kind of expression. -/
theorem read_binary (n : Nat) (op : BinaryOp) (j : Json) :
    read (n + 1) (variant op.key j) =
      (j.pair? (read n) (read n)).map fun (l, r) => binary op l r := by
  cases op <;> rfl

/-- An expression is read with any depth that its value does not exceed. -/
theorem read_toJson {n : Nat} {e : Expr} (h : e.toJson.height ≤ n) : read n e.toJson = some e := by
  induction n generalizing e with
  | zero => exact absurd h (Nat.not_le.2 e.toJson.height_pos)
  | succ n ih =>
    cases e with
    | var v => simp [toJson, read, Var.restores v]
    | const t => simp [toJson, read, Term.restores t]
    | bound v => simp [toJson, read, Var.restores v]
    | not e =>
      have he : e.toJson.height ≤ n := by simpa [toJson] using h
      simp [toJson, read, ih he]
    | binary op l r =>
      have hlr : l.toJson.height ≤ n ∧ r.toJson.height ≤ n := by
        simp [toJson, heightItems] at h
        omega
      rw [toJson, read_binary]
      simp [pair?, ih hlr.1, ih hlr.2]
    | call name args =>
      rw [toJson, toJsonAll_eq_map] at h ⊢
      have hargs : heightItems (args.map toJson) ≤ n := by
        simp [heightFields] at h
        omega
      have hread : (arr (args.map toJson)).list? (read n) = some args :=
        list?_of_height hargs fun e he => ih he
      simp [read, record_obj, List.lookup_cons, required, withDefault, string?, hread]

theorem restores : Restores toJson ofJson? := fun _ => read_toJson (Nat.le_refl _)

theorem toJson_ne_null (e : Expr) : e.toJson ≠ .null := by
  cases e <;> exact Json.noConfusion

end Expr

theorem Direction.restores : Restores Direction.toJson Direction.ofJson? := by
  intro d
  cases d <;> rfl

theorem SortKey.restores : Restores SortKey.toJson SortKey.ofJson? := by
  intro k
  simp [SortKey.toJson, SortKey.ofJson?, record_obj, List.lookup_cons, required, withDefault,
    Expr.restores _, Direction.restores _]

theorem Aggregator.restores : Restores Aggregator.toJson Aggregator.ofJson? := by
  intro a
  cases a with
  | count e d =>
    have he := Expr.restores.nullable Expr.toJson_ne_null e
    simp [Aggregator.toJson, Aggregator.ofJson?, record_obj, List.lookup_cons, withDefault, he, bool?]
  | groupConcat e s =>
    simp [Aggregator.toJson, Aggregator.ofJson?, record_obj, List.lookup_cons, required, withDefault,
      Expr.restores e, string?]
  | _ e => simp [Aggregator.toJson, Aggregator.ofJson?, Expr.restores e]

theorem Aggregation.restores : Restores Aggregation.toJson Aggregation.ofJson? := by
  intro a
  simp [Aggregation.toJson, Aggregation.ofJson?, record_obj, List.lookup_cons, required,
    Var.restores _, Aggregator.restores _]

end SparqlAlgebra
