import SparqlAlgebra.Json.Op
import SparqlAlgebra.Proofs.Json.Expr
import SparqlAlgebra.Proofs.Op.Everywhere

/-!
Operators are read as they were written. Operators from outside have no JSON form.
-/

namespace SparqlAlgebra

open Json

namespace Op

theorem toJsonAll_eq_map (steps : List Op) : toJsonAll steps = steps.map toJson := by
  induction steps with
  | nil => rfl
  | cons op rest ih => rw [toJsonAll, ih, List.map_cons]

/-- Only an operator from outside is written like an absent one. -/
theorem toJson_ne_null {op : Op} (h : op.native = true) : op.toJson ≠ .null := by
  cases op with
  | ext e => cases h
  | _ => exact Json.noConfusion

section Height

variable {op sub b : Op}

theorem height_of_mem_branches (h : b ∈ op.branches) : b.toJson.height ≤ op.toJson.height := by
  fun_induction branches op with
  | case1 l r hl hr =>
    simp only [toJson, sidesJson, height_variant, height_obj, heightFields]
    rcases List.mem_append.1 h with h | h
    · have := hl h
      omega
    · have := hr h
      omega
  | case2 op _ => exact Nat.le_of_eq (congrArg (height ∘ toJson) (List.mem_singleton.1 h))

theorem height_of_mem_operands (h : sub ∈ op.operands) :
    sub.toJson.height < op.toJson.height := by
  cases op with
  | union l r =>
    simp only [toJson, sidesJson, height_variant, height_obj, heightFields]
    simp only [operands, List.mem_cons, List.mem_append] at h
    -- Branches are no operands of the sides but stand in them at any depth.
    rcases h with rfl | rfl | h | h
    · omega
    · omega
    · have := height_of_mem_branches h
      omega
    · have := height_of_mem_branches h
      omega
  | sequence steps =>
    have hsub : sub.toJson.height ≤ heightItems (toJsonAll steps) := by
      rw [toJsonAll_eq_map]
      exact height_le_of_mem (List.mem_map_of_mem h)
    simp only [toJson, height_variant, height_arr]
    omega
  | _ =>
    simp only [operands, List.mem_cons, List.not_mem_nil, or_false] at h <;>
      rcases h with rfl | rfl <;>
      simp only [toJson, sidesJson, List.cons_append, List.nil_append, height_variant, height_obj,
        heightFields] <;>
      omega

end Height

section Parts

variable {α : Type} {f : Json → Option Op} {l r sub : Op} {i j : Json}

/-- Only the operator without parts is written as a bare name. -/
theorem read_variant {name : String} (h : name ≠ "null") (n : Nat) (j : Json) :
    read (n + 1) (variant name j) = readVariant (read n) name j := by
  have hunit : (variant name j).unit? ≠ some "null" := by
    cases j <;> simp [unit?, h]
  rw [read, if_neg hunit, variant?_variant]

theorem readSides_sidesJson (hl : f i = some l) (hr : f j = some r) :
    readSides f (.obj (sidesJson i j)) = some (l, r) := by
  simp [readSides, sidesJson, record_obj, List.lookup_cons, required, hl, hr]

theorem readOver_obj {name : String} {value : Json → Option α} {a : α} (hname : name ≠ "sub_op")
    (ha : value i = some a) (hsub : f j = some sub) :
    readOver f name value (.obj [(name, i), ("sub_op", j)]) = some (a, sub) := by
  have hne : ("sub_op" == name) = false := beq_eq_false_iff_ne.2 (Ne.symm hname)
  have hrecord : (obj [(name, i), ("sub_op", j)]).record [name, "sub_op"] =
      some [some i, some j] := by
    rw [record_obj (by simp [hname])]
    simp [List.lookup_cons, hne]
  simp [readOver, hrecord, required, ha, hsub]

theorem restores_assignments :
    Restores (ofList assignmentJson) (list? (pair? Var.ofJson? Expr.ofJson?)) :=
  (Var.restores.pair Expr.restores).list

end Parts

/-- Every operator is read as it was written when the operands that it was written with are. -/
theorem read_succ_toJson {op : Op} {n : Nat} (h : op.native = true)
    (hread : ∀ sub ∈ op.operands, read n sub.toJson = some sub) :
    read (n + 1) op.toJson = some op := by
  cases op with
  | bgp p => simp [toJson, read_variant, readVariant, BasicPattern.restores p]
  | triple t => simp [toJson, read_variant, readVariant, TriplePattern.restores t]
  | quad q => simp [toJson, read_variant, readVariant, QuadPattern.restores q]
  | path p => simp [toJson, read_variant, readVariant, PathPattern.restores p]
  | table t => simp [toJson, read_variant, readVariant, Table.restores t]
  | datasetNames g =>
    simp [toJson, read_variant, readVariant, record_obj, List.lookup_cons, required, Slot.restores g]
  | null => rfl
  | join l r =>
    have hsides := readSides_sidesJson (hread l (by simp [operands])) (hread r (by simp [operands]))
    simp [toJson, read_variant, readVariant, hsides]
  | union l r =>
    have hsides := readSides_sidesJson (hread l (by simp [operands])) (hread r (by simp [operands]))
    simp [toJson, read_variant, readVariant, hsides]
  | diff l r =>
    have hsides := readSides_sidesJson (hread l (by simp [operands])) (hread r (by simp [operands]))
    simp [toJson, read_variant, readVariant, hsides]
  | conditional l r =>
    have hsides := readSides_sidesJson (hread l (by simp [operands])) (hread r (by simp [operands]))
    simp [toJson, read_variant, readVariant, hsides]
  | leftJoin l r exprs =>
    have hl := hread l (by simp [operands])
    have hr := hread r (by simp [operands])
    have hexprs := Expr.restores.list.nullable (fun _ => Json.noConfusion) exprs
    simp [toJson, read_variant, readVariant, sidesJson, record_obj, List.lookup_cons, required,
      withDefault, hl, hr, hexprs]
  | filter exprs sub =>
    have hsub := hread sub (by simp [operands])
    have hover := readOver_obj (by decide : "exprs" ≠ "sub_op") (Expr.restores.list exprs) hsub
    simp [toJson, read_variant, readVariant, hover]
  | graph name sub =>
    have hsub := hread sub (by simp [operands])
    have hover := readOver_obj (by decide : "name" ≠ "sub_op") (Slot.restores name) hsub
    simp [toJson, read_variant, readVariant, hover]
  | project vars sub =>
    have hsub := hread sub (by simp [operands])
    have hover := readOver_obj (by decide : "vars" ≠ "sub_op") (Var.restores.list vars) hsub
    simp [toJson, read_variant, readVariant, hover]
  | order keys sub =>
    have hsub := hread sub (by simp [operands])
    have hover :=
      readOver_obj (by decide : "conditions" ≠ "sub_op") (SortKey.restores.list keys) hsub
    simp [toJson, read_variant, readVariant, hover]
  | assign assignments sub =>
    have hsub := hread sub (by simp [operands])
    have hover :=
      readOver_obj (by decide : "assignments" ≠ "sub_op") (restores_assignments assignments) hsub
    simp [toJson, read_variant, readVariant, hover]
  | service endpoint sub silent =>
    have hsub := hread sub (by simp [operands])
    simp [toJson, read_variant, readVariant, record_obj, List.lookup_cons, required, withDefault,
      Slot.restores endpoint, restores_bool silent, hsub]
  | procedure name args sub =>
    have hsub := hread sub (by simp [operands])
    simp [toJson, read_variant, readVariant, record_obj, List.lookup_cons, required, withDefault,
      restores_string name, Expr.restores.list args, hsub]
  | propFunc property subject object sub =>
    have hsub := hread sub (by simp [operands])
    simp [toJson, read_variant, readVariant, record_obj, List.lookup_cons, required,
      restores_string property, Argument.restores _, hsub]
  | slice offset length sub =>
    have hsub := hread sub (by simp [operands])
    have hlimit := restores_uint64.nullable fun _ => Json.noConfusion
    simp [toJson, read_variant, readVariant, record_obj, List.lookup_cons, required, withDefault,
      hlimit _, hsub]
  | group vars aggs sub =>
    have hsub := hread sub (by simp [operands])
    simp [toJson, read_variant, readVariant, record_obj, List.lookup_cons, required, withDefault,
      Var.restores.list vars, Aggregation.restores.list aggs, hsub]
  | sequence steps =>
    have hsteps : (arr (steps.map toJson)).list? (read n) = some steps := mapM_map hread
    simp [toJson, toJsonAll_eq_map, read_variant, readVariant, hsteps]
  | marker name =>
    simp [toJson, read_variant, readVariant, record_obj, List.lookup_cons, required, withDefault,
      restores_string name, nullable?]
  | label name sub =>
    -- The operand is read in a place where `null` stands for none.
    have hnull : sub.toJson ≠ .null :=
      toJson_ne_null (everywhere_of_mem_operands h (by simp [operands]))
    have hsub := nullable?_of_ne_null (read n) hnull
    simp [toJson, read_variant, readVariant, record_obj, List.lookup_cons, required, withDefault,
      restores_string name, hsub, hread sub (by simp [operands])]
  | list sub => simp [toJson, read_variant, readVariant, hread sub (by simp [operands])]
  | distinct sub => simp [toJson, read_variant, readVariant, hread sub (by simp [operands])]
  | reduced sub => simp [toJson, read_variant, readVariant, hread sub (by simp [operands])]
  | ext e => cases h

/-- An operator is read with any depth that its value does not exceed. -/
theorem read_toJson {op : Op} (h : op.native = true) {n : Nat} (hn : op.toJson.height ≤ n) :
    read n op.toJson = some op := by
  induction op using operands_induction generalizing n with
  | step op ih =>
    cases n with
    | zero => exact absurd hn (Nat.not_le.2 op.toJson.height_pos)
    | succ n =>
      refine read_succ_toJson h fun sub hs => ?_
      have hlt := height_of_mem_operands hs
      exact ih sub hs (everywhere_of_mem_operands h hs) (by omega)

/-- A plan without operators from outside is read as it was written. -/
theorem ofJson?_toJson {op : Op} (h : op.native = true) : ofJson? op.toJson = some op :=
  read_toJson h (Nat.le_refl _)

/-- An empty list, an absent length and an operator without parts are told apart. -/
theorem ofJson?_toJson_leftJoin :
    let greeting : Term := .literal { lexical := "null", lang := some "en" }
    let l : Op := .label "kept" .null
    let r : Op := .slice (some 1) none (.sequence [.marker "null", .graph (.term greeting) .null])
    let op : Op := .leftJoin l (.filter [.not (.const greeting)] r) (some [])
    op.native = true ∧ ofJson? op.toJson = some op := by
  intro greeting l r op
  have h : op.native = true := rfl
  exact ⟨h, ofJson?_toJson h⟩

end Op

end SparqlAlgebra
