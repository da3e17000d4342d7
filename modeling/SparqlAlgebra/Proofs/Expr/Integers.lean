import SparqlAlgebra.Expr.Eval
import SparqlAlgebra.Proofs.Number.Sums

/-!
Integers as literals, and as results that are checked for range. A literal that is made of an
integer is read back as this integer: digits and the minus sign are no white space, so nothing is
lost when the text is trimmed.
-/

namespace SparqlAlgebra

namespace Text

theorem dropWhile_isBlank {s : List Char} (h : ∀ c ∈ s, isBlank c = false) :
    s.dropWhile isBlank = s := by
  cases s with
  | nil => rfl
  | cons c s => rw [List.dropWhile_cons_of_neg (by simp [h c List.mem_cons_self])]

theorem trim_of_not_isBlank {s : List Char} (h : ∀ c ∈ s, isBlank c = false) : trim s = s := by
  have hrev : ∀ c ∈ s.reverse, isBlank c = false := fun c hc => h c (List.mem_reverse.1 hc)
  rw [trim, trimRight, dropWhile_isBlank h, dropWhile_isBlank hrev, List.reverse_reverse]

theorem isBlank_of_isDigit {c : Char} (h : c.isDigit = true) : isBlank c = false := by
  -- Of the characters that are white space none is a digit.
  have hblanks : blanks.all (!·.isDigit) = true := rfl
  rw [isBlank, ← Bool.not_eq_true, List.contains_iff_mem]
  intro hc
  have hc := List.all_eq_true.1 hblanks c hc
  rw [h] at hc
  cases hc

end Text

namespace Number

theorem isDigit_of_mem_toDigits (n : Nat) : ∀ c ∈ Nat.toDigits 10 n, c.isDigit = true :=
  fun _ hc => Nat.isDigit_of_mem_toDigits (by decide) (by decide) hc

theorem readNat_toDigits (n : Nat) : readNat (Nat.toDigits 10 n) = some n := by
  have hdigits : (Nat.toDigits 10 n).all Char.isDigit = true :=
    List.all_eq_true.2 (isDigit_of_mem_toDigits n)
  have hvalue : pushDigits 0 (Nat.toDigits 10 n) = n := Nat.ofDigitChars_ten_toDigits
  rw [readNat, if_pos ⟨Nat.toDigits_ne_nil, hdigits⟩, hvalue]

/-- Only a text that starts with a sign has one to take off. -/
theorem splitSign_of_isDigit {s : List Char} (h : ∀ c ∈ s, c.isDigit = true) :
    splitSign s = (false, s) := by
  unfold splitSign
  split
  · exact absurd (h '-' List.mem_cons_self) (by decide)
  · exact absurd (h '+' List.mem_cons_self) (by decide)
  · rfl

theorem toList_intText_ofNat (n : Nat) : (intText (.ofNat n)).toList = Nat.toDigits 10 n :=
  String.toList_ofList

theorem toList_intText_negSucc (n : Nat) :
    (intText (.negSucc n)).toList = '-' :: Nat.toDigits 10 (n + 1) := by
  rw [intText, String.toList_append, natText]
  exact congrArg ('-' :: ·) String.toList_ofList

theorem readInt_intText (n : Int) : readInt (intText n).toList = some n := by
  cases n with
  | ofNat n =>
    rw [toList_intText_ofNat, readInt, splitSign_of_isDigit (isDigit_of_mem_toDigits n)]
    simp only [readNat_toDigits]
    rfl
  | negSucc n =>
    rw [toList_intText_negSucc, readInt, splitSign]
    simp only [readNat_toDigits]
    rfl

theorem trim_intText (n : Int) : Text.trim (intText n).toList = (intText n).toList := by
  have hdigits (k : Nat) : ∀ c ∈ Nat.toDigits 10 k, Text.isBlank c = false := fun c hc =>
    Text.isBlank_of_isDigit (isDigit_of_mem_toDigits k c hc)
  refine Text.trim_of_not_isBlank ?_
  cases n with
  | ofNat n =>
    rw [toList_intText_ofNat]
    exact hdigits n
  | negSucc n =>
    rw [toList_intText_negSucc]
    exact List.forall_mem_cons.2 ⟨by decide, hdigits (n + 1)⟩

/-- A 64-bit integer is read back from its text. -/
theorem readInt64_intText (v : Int64) :
    readInt64 (Text.trim (intText v.toInt).toList) = some v := by
  rw [trim_intText, readInt64, readInt_intText]
  exact toInt64?_eq_some_iff.2 rfl

theorem exists_toInt_eq {n : Int} (h : InRange n) : ∃ v : Int64, v.toInt = n := by
  obtain ⟨v, hv⟩ := Option.isSome_iff_exists.1 (isSome_toInt64?.2 h)
  exact ⟨v, toInt64?_eq_some_iff.1 hv⟩

end Number

open Number

namespace Term

variable {v w : Int64}

/-- An integer literal has the value it was made of: it is printed and read back. -/
theorem numeric?_int (v : Int64) : (int v).numeric? = some (.integer v) := by
  have hliteral : int v = literal ⟨intText v.toInt, some (xsd "integer"), none⟩ := by
    rw [int, typed, if_neg (by decide)]
  have hinteger : xsd "integer" ∈ integerTypes := by decide
  rw [hliteral, numeric?]
  simp only [if_pos hinteger, readInt64_intText, Option.map_some]

theorem int_inj : int v = int w ↔ v = w := by
  constructor
  · intro h
    have hnumeric := congrArg numeric? h
    rw [numeric?_int, numeric?_int, Option.some_inj] at hnumeric
    exact Numeric.integer.inj hnumeric
  · rintro rfl
    rfl

theorem datatype?_typed {datatype : String} (s : String) (h : datatype ≠ xsd "string") :
    (typed s datatype).datatype? = some datatype := by
  rw [typed, if_neg h]
  rfl

theorem int_ne_double (v : Int64) (x : Float) : int v ≠ double x := by
  intro h
  have hdatatype := congrArg datatype? h
  rw [int, double, datatype?_typed _ (by decide), datatype?_typed _ (by decide)] at hdatatype
  exact absurd hdatatype (by decide)

end Term

namespace Numeric

theorem checked_toInt (v : Int64) : checked v.toInt = .ok (.integer v) := by
  rw [checked, toInt64?_eq_some_iff.2 rfl]

theorem checked_of_not_inRange {n : Int} (h : ¬ InRange n) : checked n = .error .overflow := by
  rw [← isSome_toInt64?, Option.not_isSome_iff_eq_none] at h
  rw [checked, h]

end Numeric

end SparqlAlgebra
