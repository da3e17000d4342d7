import SparqlAlgebra.Expr.Eval
import SparqlAlgebra.Proofs.Term.Order

/-!
The comparison operators against each other and against the order of `ORDER BY`. Two terms are
compared as numbers, as booleans or as strings; equality and the order of `ORDER BY` know numbers by
their values, but take booleans for texts.
-/

namespace SparqlAlgebra

namespace Term

variable {a b t : Term} {o : Ordering} {x y : Bool}

/-- How two terms come to be compared. -/
inductive Compares : Term → Term → Ordering → Prop
  | numbers {a b : Term} {x y : Numeric} {o : Ordering} : a.numeric? = some x →
    b.numeric? = some y → x.cmp? y = some o → Compares a b o
  | booleans {a b : Term} {x y : Bool} : a.bool? = some x → b.bool? = some y →
    Compares a b (compare x y)
  | strings (x y : String) (lang : Option String) :
    Compares (literal ⟨x, none, lang⟩) (literal ⟨y, none, lang⟩) (compare x y)

/-- Two boolean literals of one value that are not the same term. -/
def Respelled (a b : Term) : Prop := a ≠ b ∧ ∃ x, a.bool? = some x ∧ b.bool? = some x

/-- Boolean literals, false and true by value, of which the text of the second comes first. -/
def Inverted (a b : Term) : Prop :=
  a.bool? = some false ∧ b.bool? = some true ∧ a.lexical = "false" ∧ b.lexical = "1"

theorem bool?_eq_some (h : t.bool? = some x) : ∃ s lang,
    t = literal ⟨s, some (xsd "boolean"), lang⟩ ∧
      ((x = true ∧ (s = "true" ∨ s = "1")) ∨ (x = false ∧ (s = "false" ∨ s = "0"))) := by
  unfold bool? at h
  split at h
  · rename_i s datatype lang
    split at h
    · cases h
    · rename_i hdatatype
      obtain rfl := not_not.1 hdatatype
      refine ⟨s, lang, rfl, ?_⟩
      split at h
      · exact .inl ⟨(Option.some_inj.1 h).symm, ‹_›⟩
      · split at h
        · exact .inr ⟨(Option.some_inj.1 h).symm, ‹_›⟩
        · cases h
  · cases h

theorem numeric?_of_bool? (h : t.bool? = some x) : t.numeric? = none := by
  obtain ⟨s, lang, rfl, -⟩ := bool?_eq_some h
  have hint : xsd "boolean" ∉ integerTypes := by decide
  have hdouble : xsd "boolean" ∉ doubleTypes := by decide
  simp only [numeric?, if_neg hint, if_neg hdouble]

theorem compares (h : a.compare? b = .ok o) : Compares a b o := by
  unfold compare? at h
  split at h
  · split at h
    · cases h
      exact .numbers ‹_› ‹_› ‹_›
    · cases h
  · cases h
    exact .booleans ‹_› ‹_›
  · split at h
    · rename_i x l y m _ _
      split at h
      · cases h
        subst ‹l = m›
        exact .strings x y l
      · cases h
    · cases h

theorem not_respelled_of_numeric? {z : Numeric} (h : a.numeric? = some z) : ¬ Respelled a b := by
  rintro ⟨-, x, hx, -⟩
  rw [numeric?_of_bool? hx] at h
  cases h

/-- Terms are equal if they compare as such, except for respelled booleans. -/
theorem Compares.equal_iff (h : Compares a b o) : a.equal b = true ↔ o = .eq ∧ ¬ Respelled a b := by
  cases h with
  | numbers hx hy hxy =>
    have hequal : a.equal b = (some o == some .eq) := by simp only [equal, hx, hy, hxy]
    rw [hequal, beq_iff_eq, Option.some_inj]
    exact ⟨fun h => ⟨h, not_respelled_of_numeric? hx⟩, fun h => h.1⟩
  | @booleans a b x y hx hy =>
    have hequal : a.equal b = (a == b) := by simp only [equal, numeric?_of_bool? hx]
    rw [hequal, beq_iff_eq, compare_eq_iff_eq]
    constructor
    · rintro rfl
      exact ⟨Option.some_inj.1 (hx.symm.trans hy), fun h => h.1 rfl⟩
    · rintro ⟨rfl, hsame⟩
      by_contra hne
      exact hsame ⟨hne, x, hx, hy⟩
  | strings x y lang =>
    have hequal : (literal ⟨x, none, lang⟩).equal (literal ⟨y, none, lang⟩) =
        (literal ⟨x, none, lang⟩ == literal ⟨y, none, lang⟩) := rfl
    rw [hequal, beq_iff_eq, compare_eq_iff_eq]
    constructor
    · rintro h
      cases h
      exact ⟨rfl, fun h => h.1 rfl⟩
    · rintro ⟨rfl, -⟩
      rfl

theorem Compares.eq_of_respelled (h : Compares a b o) (hab : Respelled a b) : o = .eq := by
  cases h with
  | numbers hx => exact absurd hab (not_respelled_of_numeric? hx)
  | booleans hx hy =>
    obtain ⟨-, z, hxz, hyz⟩ := hab
    rw [Option.some_inj.1 (hx.symm.trans hxz), Option.some_inj.1 (hy.symm.trans hyz)]
    exact compare_eq_iff_eq.2 rfl
  | strings x y lang =>
    obtain ⟨-, z, hz, -⟩ := hab
    cases hz

/-- Whether equality goes with the comparison. -/
theorem Compares.equal_of_eq_iff (h : Compares a b o) :
    (o = .eq → a.equal b = true) ↔ ¬ Respelled a b := by
  constructor
  · intro hequal hab
    have heq : a.equal b = true := hequal (h.eq_of_respelled hab)
    exact (h.equal_iff.1 heq).2 hab
  · intro hab ho
    exact h.equal_iff.2 ⟨ho, hab⟩

theorem sortCmp?_of_not_numeric (ha : a.numeric? = none) :
    sortCmp? (some a) (some b) = (compare a.kindRank b.kindRank).then (compare a b) := by
  have hvalue : valueCmp (some a) (some b) = .eq := by simp [valueCmp, ha]
  rw [sortCmp?_eq, hvalue]
  rfl

/-- Of literals with one datatype, the texts are compared first. -/
theorem sortCmp?_literal {x y : String} {datatype l m : Option String}
    (hx : (literal ⟨x, datatype, l⟩).numeric? = none) (hxy : compare x y ≠ .eq) :
    sortCmp? (some (literal ⟨x, datatype, l⟩)) (some (literal ⟨y, datatype, m⟩)) = compare x y := by
  rw [sortCmp?_of_not_numeric hx]
  show (compare x y).then _ = _
  cases h : compare x y with
  | eq => exact absurd h hxy
  | _ => rfl

/-- The lesser of two terms is sorted before the other, except for inverted booleans. -/
theorem Compares.sortCmp?_iff (h : Compares a b o) (hlt : o = .lt) :
    sortCmp? (some a) (some b) = .lt ↔ ¬ Inverted a b := by
  cases h with
  | numbers hx hy hxy =>
    refine iff_of_true (sortCmp?_eq_lt.2 (.inl (valueCmp_eq_lt.2 ⟨_, _, hx, hy, hlt ▸ hxy⟩))) ?_
    rintro ⟨hbool, -⟩
    rw [numeric?_of_bool? hbool] at hx
    cases hx
  | @booleans a b x y hx hy =>
    have hfalse : x = false ∧ y = true := by revert hlt; cases x <;> cases y <;> decide
    obtain ⟨rfl, rfl⟩ := hfalse
    -- Two texts for false and two for true: of the four pairs one is in the other order.
    have hnone := numeric?_of_bool? hx
    obtain ⟨s, l, rfl, ⟨h, -⟩ | ⟨-, hs⟩⟩ := bool?_eq_some hx
    · cases h
    obtain ⟨t, m, rfl, ⟨-, ht⟩ | ⟨h, -⟩⟩ := bool?_eq_some hy
    · have hst : compare s t ≠ .eq ∧ (compare s t = .lt ↔ ¬ (s = "false" ∧ t = "1")) := by
        rcases hs with rfl | rfl <;> rcases ht with rfl | rfl <;> decide
      rw [sortCmp?_literal hnone hst.1, hst.2]
      exact not_congr ⟨fun h => ⟨hx, hy, h⟩, fun h => ⟨h.2.2.1, h.2.2.2⟩⟩
    · cases h
  | strings x y lang =>
    refine iff_of_true ((sortCmp?_literal rfl (by rw [hlt]; decide)).trans hlt) ?_
    rintro ⟨hbool, -⟩
    cases hbool

end Term

/-- Whether a comparison operator is true of terms that are equal or not and compare like this. -/
def BinaryOp.relates (equal : Bool) (o : Ordering) : BinaryOp → Bool
  | .eq => equal
  | .ne => !equal
  | .lt => o.isLT
  | .le => o.isLE
  | .gt => o.isGT
  | .ge => o.isGE
  | _ => false

namespace BinaryOp

variable {equal : Bool} {o : Ordering}

/-- Where equal terms compare as such, one operator of three is true unless terms that compare as
equal are not. -/
theorem existsUnique_relates (he : equal = true → o = .eq) :
    (∃! op, op ∈ [lt, eq, gt] ∧ relates equal o op = true) ↔ (o = .eq → equal = true) := by
  have hmem (op : BinaryOp) : op ∈ [lt, eq, gt] ↔ op = lt ∨ op = eq ∨ op = gt := by simp
  simp only [ExistsUnique, hmem]
  cases o with
  | lt =>
    refine iff_of_true ⟨lt, ⟨.inl rfl, rfl⟩, ?_⟩ nofun
    rintro op ⟨rfl | rfl | rfl, hop⟩
    · rfl
    · cases he hop
    · cases hop
  | eq =>
    cases equal with
    | false =>
      refine iff_of_false ?_ fun h => nomatch h rfl
      rintro ⟨op, ⟨rfl | rfl | rfl, hop⟩, -⟩ <;> cases hop
    | true =>
      refine iff_of_true ⟨eq, ⟨.inr (.inl rfl), rfl⟩, ?_⟩ fun _ => rfl
      rintro op ⟨rfl | rfl | rfl, hop⟩
      · cases hop
      · rfl
      · cases hop
  | gt =>
    refine iff_of_true ⟨gt, ⟨.inr (.inr rfl), rfl⟩, ?_⟩ nofun
    rintro op ⟨rfl | rfl | rfl, hop⟩
    · cases hop
    · cases he hop
    · rfl

theorem relates_le_iff (he : equal = true → o = .eq) :
    (relates equal o le = true ↔ relates equal o lt = true ∨ relates equal o eq = true) ↔
      (o = .eq → equal = true) := by
  revert he
  cases o <;> cases equal <;> decide

theorem relates_ge_iff (he : equal = true → o = .eq) :
    (relates equal o ge = true ↔ relates equal o gt = true ∨ relates equal o eq = true) ↔
      (o = .eq → equal = true) := by
  revert he
  cases o <;> cases equal <;> decide

theorem relates_ne_iff : relates equal o ne = true ↔ ¬ relates equal o eq = true := by
  cases equal <;> simp [relates]

end BinaryOp

namespace Expr

open Term

variable {fs : Functions} {row : Binding} {l r : Expr} {a b : Term} {o : Ordering} {op : BinaryOp}

theorem eval_relates (ha : l.eval fs row = .ok a) (hb : r.eval fs row = .ok b)
    (ho : a.compare? b = .ok o) (hop : op ∈ [BinaryOp.lt, .le, .eq, .ne, .ge, .gt]) :
    (binary op l r).eval fs row = .ok (.boolean (op.relates (a.equal b) o)) := by
  have hcomparison (holds : Ordering → Bool) :
      comparison holds (.ok a) (.ok b) = .ok (.boolean (holds o)) := by
    show (a.compare? b).bind _ = _
    rw [ho]
    rfl
  rw [eval, ha, hb]
  simp only [List.mem_cons, List.not_mem_nil, or_false] at hop
  rcases hop with rfl | rfl | rfl | rfl | rfl | rfl
  · exact hcomparison _
  · exact hcomparison _
  · rfl
  · rfl
  · exact hcomparison _
  · exact hcomparison _

theorem compare?_of_eval_lt {t : Term} (ha : l.eval fs row = .ok a) (hb : r.eval fs row = .ok b)
    (h : (binary .lt l r).eval fs row = .ok t) : ∃ o, a.compare? b = .ok o := by
  rw [eval, ha, hb] at h
  cases ho : a.compare? b with
  | ok o => exact ⟨o, rfl⟩
  | error e =>
    have hfails : comparison Ordering.isLT (.ok a) (.ok b) = .error e := by
      show (a.compare? b).bind _ = _
      rw [ho]
      rfl
    cases hfails.symm.trans h

/-- Of two terms that compare, one is less, equal or greater, and the other operators and the order
of `ORDER BY` go with that. Two spellings of one boolean are neither, and `"false"` is less than
`"1"` and sorted behind it; there are no other exceptions. -/
theorem comparisons_agree (ha : l.eval fs row = .ok a) (hb : r.eval fs row = .ok b)
    (h : ∀ op ∈ [BinaryOp.lt, .eq, .gt], ∃ t, (binary op l r).eval fs row = .ok t) :
    let holds (op : BinaryOp) : Prop := (binary op l r).eval fs row = .ok (.boolean true)
    (∀ op ∈ [BinaryOp.lt, .le, .eq, .ne, .ge, .gt],
      ∃ x, (binary op l r).eval fs row = .ok (.boolean x)) ∧
    ((∃! op, op ∈ [BinaryOp.lt, .eq, .gt] ∧ holds op) ↔ ¬ Respelled a b) ∧
    ((holds .le ↔ holds .lt ∨ holds .eq) ↔ ¬ Respelled a b) ∧
    ((holds .ge ↔ holds .gt ∨ holds .eq) ↔ ¬ Respelled a b) ∧
    (holds .ne ↔ ¬ holds .eq) ∧
    (holds .lt → (sortCmp? (some a) (some b) = .lt ↔ ¬ Inverted a b)) := by
  intro holds
  obtain ⟨t, ht⟩ := h .lt (by simp)
  obtain ⟨o, ho⟩ := compare?_of_eval_lt ha hb ht
  have hcompares := compares ho
  have hholds (op : BinaryOp) (hop : op ∈ [BinaryOp.lt, .le, .eq, .ne, .ge, .gt]) :
      holds op ↔ op.relates (a.equal b) o = true := by
    show (binary op l r).eval fs row = .ok (.boolean true) ↔ _
    rw [eval_relates ha hb ho hop]
    cases op.relates (a.equal b) o <;> decide
  have hequal : a.equal b = true → o = .eq := fun h => (hcompares.equal_iff.1 h).1
  have hrespelled := hcompares.equal_of_eq_iff
  have hlt := hholds .lt (by simp)
  refine ⟨fun op hop => ⟨_, eval_relates ha hb ho hop⟩, ?_, ?_, ?_, ?_, fun hless => ?_⟩
  · rw [← hrespelled, ← BinaryOp.existsUnique_relates hequal]
    refine existsUnique_congr fun op => and_congr_right fun hop => hholds op ?_
    simp only [List.mem_cons, List.not_mem_nil, or_false] at hop
    rcases hop with rfl | rfl | rfl <;> decide
  · rw [hholds .le (by simp), hlt, hholds .eq (by simp), ← hrespelled]
    exact BinaryOp.relates_le_iff hequal
  · rw [hholds .ge (by simp), hholds .gt (by simp), hholds .eq (by simp), ← hrespelled]
    exact BinaryOp.relates_ge_iff hequal
  · rw [hholds .ne (by simp), hholds .eq (by simp)]
    exact BinaryOp.relates_ne_iff
  · exact hcompares.sortCmp?_iff (Ordering.isLT_iff_eq_lt.1 (hlt.1 hless))

/-- Numbers whose texts are in the other order. -/
theorem comparisons_agree_numbers :
    let two : Expr := .const (.int 2)
    let ten : Expr := .const (.int 10)
    let holds (op : BinaryOp) : Prop := (binary op two ten).eval .none ∅ = .ok (.boolean true)
    (∀ op ∈ [BinaryOp.lt, .eq, .gt], ∃ t, (binary op two ten).eval .none ∅ = .ok t) ∧
      (∃! op, op ∈ [BinaryOp.lt, .eq, .gt] ∧ holds op) ∧ holds .lt ∧
      (holds .le ↔ holds .lt ∨ holds .eq) ∧ (holds .ge ↔ holds .gt ∨ holds .eq) ∧
      sortCmp? (some (.int 2)) (some (.int 10)) = .lt := by
  intro two ten holds
  have hplain : ¬ Respelled (.int 2) (.int 10) := not_respelled_of_numeric? (z := .integer 2) rfl
  have hupright : ¬ Inverted (.int 2) (.int 10) := by
    rintro ⟨hbool, -⟩
    cases hbool
  have hsound : ∀ op ∈ [BinaryOp.lt, .eq, .gt], ∃ t, (binary op two ten).eval .none ∅ = .ok t := by
    simp only [List.forall_mem_cons]
    exact ⟨⟨_, rfl⟩, ⟨_, rfl⟩, ⟨_, rfl⟩, nofun⟩
  have hlt : holds .lt := by decide
  obtain ⟨-, hone, hle, hge, -, hsort⟩ :=
    comparisons_agree (a := .int 2) (b := .int 10) rfl rfl hsound
  exact ⟨hsound, hone.2 hplain, hlt, hle.2 hplain, hge.2 hplain, (hsort hlt).2 hupright⟩

/-- Of two spellings of true neither is less, nor are they equal, yet each is at most the other. And
false may be less than true and sorted behind it. -/
theorem comparisons_disagree :
    let bool (s : String) : Term := .typed s (xsd "boolean")
    let compared (op : BinaryOp) (a b : Term) : Except EvalError Term :=
      (binary op (.const a) (.const b)).eval .none ∅
    (∀ op ∈ [BinaryOp.lt, .eq, .gt], compared op (bool "1") (bool "true") = .ok (.boolean false)) ∧
      (∀ op ∈ [BinaryOp.le, .ge], compared op (bool "1") (bool "true") = .ok (.boolean true)) ∧
      compared .lt (bool "false") (bool "1") = .ok (.boolean true) ∧
      sortCmp? (some (bool "false")) (some (bool "1")) = .gt := by
  decide

end Expr

end SparqlAlgebra
