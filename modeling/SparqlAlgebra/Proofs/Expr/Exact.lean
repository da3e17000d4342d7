import SparqlAlgebra.Proofs.Expr.Integers

/-!
Sums, differences and products of integers, nested in any way. They are evaluated to their exact
value unless the exact value of some part leaves the range of 64 bits, and then to an overflow.
-/

namespace SparqlAlgebra

open Number

/-- What an operator does to integers without bound, if it is a sum, a difference or a product. -/
def BinaryOp.exact? : BinaryOp → Option (Int → Int → Int)
  | add => some (· + ·)
  | subtract => some (· - ·)
  | multiply => some (· * ·)
  | _ => none

namespace Expr

/-- An expression of integer literals and of variables that the row binds to such, by sums,
differences and products, and its value in integers without bound. -/
inductive Exact (row : Binding) : Expr → Int → Prop
  | const (v : Int64) : Exact row (.const (.int v)) v.toInt
  | var {x : Var} {v : Int64} : row.get? x = some (.int v) → Exact row (.var x) v.toInt
  | binary {op : BinaryOp} {f : Int → Int → Int} {l r : Expr} {m n : Int} :
    op.exact? = some f → Exact row l m → Exact row r n → Exact row (.binary op l r) (f m n)

/-- The first expression is the second one or stands somewhere in it. -/
inductive Part (e : Expr) : Expr → Prop
  | refl : Part e e
  | not {f : Expr} : Part e f → Part e (.not f)
  | left {op : BinaryOp} {l r : Expr} : Part e l → Part e (.binary op l r)
  | right {op : BinaryOp} {l r : Expr} : Part e r → Part e (.binary op l r)
  | arg {name : String} {args : List Expr} {f : Expr} : f ∈ args → Part e f →
    Part e (.call name args)

/-- Every part has its exact value in 64 bits. -/
def InBounds (row : Binding) (e : Expr) : Prop :=
  ∀ s n, Part s e → Exact row s n → InRange n

variable {fs : Functions} {row : Binding} {e l r : Expr} {op : BinaryOp} {f : Int → Int → Int}
  {m n : Int} {v w : Int64} {t : Term} {x : EvalError}

/-- An expression has one exact value. -/
theorem Exact.unique (h : Exact row e m) (h' : Exact row e n) : m = n := by
  induction h generalizing n with
  | const v =>
    generalize ht : Term.int v = t at h'
    cases h' with
    | const w => rw [Term.int_inj.1 ht]
  | var hv =>
    cases h' with
    | var hw => rw [Term.int_inj.1 (Option.some_inj.1 (hv.symm.trans hw))]
  | binary hop _ _ ihl ihr =>
    cases h' with
    | binary hop' hl hr => rw [Option.some_inj.1 (hop.symm.trans hop'), ihl hl, ihr hr]

theorem inBounds_of_atom (h : Exact row e v.toInt) (hparts : ∀ s, Part s e → s = e) :
    InBounds row e := by
  intro s n hs hn
  rw [hparts s hs] at hn
  rw [← h.unique hn]
  exact inRange_toInt v

theorem inBounds_const (row : Binding) (v : Int64) : InBounds row (.const (.int v)) :=
  inBounds_of_atom (.const v) fun s hs => by cases hs; rfl

theorem inBounds_var {x : Var} (h : row.get? x = some (.int v)) : InBounds row (.var x) :=
  inBounds_of_atom (.var h) fun s hs => by cases hs; rfl

/-- Of an operation the operands and the result are in bounds. -/
theorem inBounds_binary (h : Exact row (.binary op l r) n) :
    InBounds row (.binary op l r) ↔ InRange n ∧ InBounds row l ∧ InBounds row r := by
  constructor
  · intro hb
    exact ⟨hb _ n .refl h, fun s k hs => hb s k hs.left, fun s k hs => hb s k hs.right⟩
  · rintro ⟨hn, hl, hr⟩ s k hs hk
    cases hs with
    | refl => rwa [← h.unique hk]
    | left hs => exact hl s k hs hk
    | right hs => exact hr s k hs hk

/-- An exact operator takes its operands from left to right, and checks the exact result. -/
theorem exists_arith (hop : op.exact? = some f) : ∃ o : ArithOp,
    (∀ a b, applyOp op a b = a.bind fun s => b.bind fun t => arithmetic o s t) ∧
      ∀ v w, Numeric.apply o (.integer v) (.integer w) = Numeric.checked (f v.toInt w.toInt) := by
  cases op with
  | add =>
    cases hop
    exact ⟨.add, fun _ _ => rfl, fun _ _ => rfl⟩
  | subtract =>
    cases hop
    exact ⟨.subtract, fun _ _ => rfl, fun _ _ => rfl⟩
  | multiply =>
    cases hop
    exact ⟨.multiply, fun _ _ => rfl, fun _ _ => rfl⟩
  | _ => cases hop

theorem eval_binary_int (hop : op.exact? = some f) (hl : l.eval fs row = .ok (.int v))
    (hr : r.eval fs row = .ok (.int w)) :
    (binary op l r).eval fs row =
      (Numeric.checked (f v.toInt w.toInt)).map Numeric.toTerm := by
  obtain ⟨o, happly, hchecked⟩ := exists_arith hop
  rw [eval, happly, hl, hr]
  simp only [Except.bind, arithmetic, Term.numeric?_int, hchecked]

theorem eval_binary_left (hop : op.exact? = some f) (hl : l.eval fs row = .error x) :
    (binary op l r).eval fs row = .error x := by
  obtain ⟨o, happly, -⟩ := exists_arith hop
  rw [eval, happly, hl]
  rfl

theorem eval_binary_right (hop : op.exact? = some f) (hl : l.eval fs row = .ok t)
    (hr : r.eval fs row = .error x) : (binary op l r).eval fs row = .error x := by
  obtain ⟨o, happly, -⟩ := exists_arith hop
  rw [eval, happly, hl, hr]
  rfl

/-- Sums, differences and products of integers come out exact if all parts are in bounds, and
otherwise as an overflow. -/
theorem eval_exact (h : Exact row e n) :
    (InBounds row e → ∃ v : Int64, v.toInt = n ∧ e.eval fs row = .ok (.int v)) ∧
      (¬ InBounds row e → e.eval fs row = .error .overflow) := by
  induction h with
  | const v =>
    exact ⟨fun _ => ⟨v, rfl, by rw [eval]⟩, fun hnot => absurd (inBounds_const row v) hnot⟩
  | @var x v hx =>
    exact ⟨fun _ => ⟨v, rfl, by rw [eval, hx]⟩, fun hnot => absurd (inBounds_var hx) hnot⟩
  | @binary op f l r m n hop hl hr ihl ihr =>
    rw [inBounds_binary (.binary hop hl hr)]
    by_cases hlb : InBounds row l
    · obtain ⟨v, rfl, hv⟩ := ihl.1 hlb
      by_cases hrb : InBounds row r
      · -- Both operands are exact, so that the range of the result decides.
        obtain ⟨w, rfl, hw⟩ := ihr.1 hrb
        have heval := eval_binary_int hop hv hw
        constructor
        · rintro ⟨hrange, -⟩
          obtain ⟨u, hu⟩ := exists_toInt_eq hrange
          rw [← hu, Numeric.checked_toInt] at heval
          exact ⟨u, hu, heval⟩
        · intro hnot
          have hrange : ¬ InRange (f v.toInt w.toInt) := fun hin => hnot ⟨hin, hlb, hrb⟩
          rw [Numeric.checked_of_not_inRange hrange] at heval
          exact heval
      · exact ⟨fun hb => absurd hb.2.2 hrb, fun _ => eval_binary_right hop hv (ihr.2 hrb)⟩
    · exact ⟨fun hb => absurd hb.2.1 hlb, fun _ => eval_binary_left hop (ihl.2 hlb)⟩

/-- The largest square below the bound comes out, while the difference of two equal squares beyond
it is an overflow, though its exact value is zero. -/
theorem eval_exact_squares :
    let row := Binding.single ⟨"x"⟩ (.int 3037000500)
    let square (e : Expr) : Expr := .binary .multiply e e
    let below : Expr := square (.binary .subtract (.var ⟨"x"⟩) (.const (.int 1)))
    let zero : Expr := .binary .subtract (square (.var ⟨"x"⟩)) (square (.var ⟨"x"⟩))
    (Exact row below 9223372030926249001 ∧ InBounds row below ∧
      below.eval .none row = .ok (.int 9223372030926249001)) ∧
    Exact row zero 0 ∧ ¬ InBounds row zero ∧ zero.eval .none row = .error .overflow := by
  intro row square below zero
  have hget : row.get? ⟨"x"⟩ = some (.int 3037000500) := by decide
  have hx : Exact row (.var ⟨"x"⟩) 3037000500 := .var hget
  have hone : Exact row (.const (.int 1)) 1 := .const 1
  have hroot : Exact row (.binary .subtract (.var ⟨"x"⟩) (.const (.int 1))) 3037000499 :=
    .binary (f := (· - ·)) rfl hx hone
  have hbelow : Exact row below 9223372030926249001 :=
    .binary (f := (· * ·)) rfl hroot hroot
  have hsquare : Exact row (square (.var ⟨"x"⟩)) 9223372037000250000 :=
    .binary (f := (· * ·)) rfl hx hx
  have hzero : Exact row zero 0 := .binary (f := (· - ·)) rfl hsquare hsquare
  have hin : InBounds row below := by
    have hrootin := (inBounds_binary hroot).2
      ⟨by decide, inBounds_var hget, inBounds_const row 1⟩
    exact (inBounds_binary hbelow).2 ⟨by decide, hrootin, hrootin⟩
  have hout : ¬ InBounds row zero := by
    intro hb
    have hrange := hb _ _ (.left .refl) hsquare
    exact absurd hrange (by decide)
  obtain ⟨v, hv, heval⟩ := (eval_exact hbelow).1 hin
  obtain rfl : v = 9223372030926249001 := Int64.toInt_inj.1 (hv.trans (by decide))
  exact ⟨⟨hbelow, hin, heval⟩, hzero, hout, (eval_exact hzero).2 hout⟩

end Expr

end SparqlAlgebra
