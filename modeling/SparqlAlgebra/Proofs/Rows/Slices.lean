import SparqlAlgebra.Proofs.Rows.Join

/-!
Slices of rows among which failures stand: what a slice meets of them, what it passes on, and how
often it has to ask. Failures do not count, so that the number of rows decides when a slice is
complete.
-/

namespace SparqlAlgebra

namespace Rows

variable {items : List (Except PlanError Binding)} {e : PlanError} {b : Binding} {skip : Nat}
  {limit : Option Nat}

/-- The rows among rows and failures. -/
def okRows (items : List (Except PlanError Binding)) : List Binding :=
  items.filterMap Except.toOption

/-- Everything but the first rows. -/
def withoutRows : Nat → List (Except PlanError Binding) → List (Except PlanError Binding)
  | 0, items => items
  | _ + 1, [] => []
  | k + 1, .error e :: items => .error e :: withoutRows (k + 1) items
  | k + 1, .ok _ :: items => withoutRows k items

/-- Everything up to a row that is told by its number, and with it. -/
def uptoRow : Nat → List (Except PlanError Binding) → List (Except PlanError Binding)
  | 0, _ => []
  | _ + 1, [] => []
  | k + 1, .error e :: items => .error e :: uptoRow (k + 1) items
  | k + 1, .ok b :: items => .ok b :: uptoRow k items

/-- With how many rows of its input a slice is complete. -/
def needed (skip : Nat) : Option Nat → Option Nat
  | none => none
  | some 0 => some 0
  | some (n + 1) => some (skip + n + 1)

/-- Whether the rows of the input make a slice complete. -/
def completes (skip : Nat) (limit : Option Nat) (items : List (Except PlanError Binding)) : Bool :=
  (needed skip limit).any (· ≤ (okRows items).length)

/-- What a slice meets of its input. -/
def met (skip : Nat) (limit : Option Nat) (items : List (Except PlanError Binding)) :
    List (Except PlanError Binding) :=
  (needed skip limit).elim items (uptoRow · items)

/-- What a slice passes on of its input. -/
def passed (skip : Nat) (limit : Option Nat) (items : List (Except PlanError Binding)) :
    List (Except PlanError Binding) :=
  withoutRows skip (met skip limit items)

/-- How often a slice asks its input, also for the end of it unless the slice is complete. -/
def asked (skip : Nat) (limit : Option Nat) (items : List (Except PlanError Binding)) : Nat :=
  if completes skip limit items then (met skip limit items).length else items.length + 1

theorem okRows_withoutRows (k : Nat) (items : List (Except PlanError Binding)) :
    okRows (withoutRows k items) = (okRows items).drop k := by
  induction items generalizing k with
  | nil => cases k <;> simp [withoutRows, okRows]
  | cons x items ih =>
    cases k with
    | zero => rfl
    | succ k =>
      cases x with
      | error e => exact ih (k + 1)
      | ok b => exact ih k

theorem okRows_uptoRow (k : Nat) (items : List (Except PlanError Binding)) :
    okRows (uptoRow k items) = (okRows items).take k := by
  induction items generalizing k with
  | nil => cases k <;> simp [uptoRow, okRows]
  | cons x items ih =>
    cases k with
    | zero => rfl
    | succ k =>
      cases x with
      | error e => exact ih (k + 1)
      | ok b => exact congrArg (b :: ·) (ih k)

/-- The rows passed on are those in the range of the slice. -/
theorem okRows_passed (skip : Nat) (limit : Option Nat) (items : List (Except PlanError Binding)) :
    okRows (passed skip limit items) = slice skip limit (okRows items) := by
  rw [passed, okRows_withoutRows, met]
  rcases limit with _ | _ | n
  · rfl
  · simp [needed, uptoRow, okRows, slice]
  · show (okRows (uptoRow (skip + n + 1) items)).drop skip = ((okRows items).drop skip).take (n + 1)
    rw [okRows_uptoRow, List.drop_take]
    congr 1
    omega

theorem okRows_cons_ok (b : Binding) (items : List (Except PlanError Binding)) :
    okRows (.ok b :: items) = b :: okRows items := rfl

theorem withoutRows_zero (items : List (Except PlanError Binding)) :
    withoutRows 0 items = items := by
  rw [withoutRows]

theorem met_zero (skip : Nat) (items : List (Except PlanError Binding)) :
    met skip (some 0) items = [] := by
  show uptoRow 0 items = []
  rw [uptoRow]

theorem met_error (hz : limit ≠ some 0) :
    met skip limit (.error e :: items) = .error e :: met skip limit items := by
  rcases limit with _ | _ | n
  · rfl
  · exact absurd rfl hz
  · rfl

theorem met_skipped (hz : limit ≠ some 0) :
    met (skip + 1) limit (.ok b :: items) = .ok b :: met skip limit items := by
  rcases limit with _ | _ | n
  · rfl
  · exact absurd rfl hz
  · simp [met, needed, uptoRow, Nat.add_right_comm skip 1]

theorem met_shown (hz : limit ≠ some 0) (ho : limit ≠ some 1) :
    met 0 limit (.ok b :: items) = .ok b :: met 0 (limit.map (· - 1)) items := by
  rcases limit with _ | _ | _ | n
  · rfl
  · exact absurd rfl hz
  · exact absurd rfl ho
  · simp [met, needed, uptoRow]

theorem completes_error (skip : Nat) (limit : Option Nat) :
    completes skip limit (.error e :: items) = completes skip limit items := rfl

theorem completes_skipped (hz : limit ≠ some 0) :
    completes (skip + 1) limit (.ok b :: items) = completes skip limit items := by
  rcases limit with _ | _ | n
  · rfl
  · exact absurd rfl hz
  · simp [completes, needed, okRows_cons_ok, Nat.add_right_comm skip 1]

theorem completes_shown (hz : limit ≠ some 0) (ho : limit ≠ some 1) :
    completes 0 limit (.ok b :: items) = completes 0 (limit.map (· - 1)) items := by
  rcases limit with _ | _ | _ | n
  · rfl
  · exact absurd rfl hz
  · exact absurd rfl ho
  · simp [completes, needed, okRows_cons_ok]

theorem completes_zero (skip : Nat) (items : List (Except PlanError Binding)) :
    completes skip (some 0) items = true := by
  simp [completes, needed]

theorem completes_nil (hz : limit ≠ some 0) : completes skip limit [] = false := by
  rcases limit with _ | _ | n
  · rfl
  · exact absurd rfl hz
  · simp [completes, needed, okRows]

theorem completes_last : completes 0 (some 1) (.ok b :: items) = true := by
  simp [completes, needed, okRows_cons_ok]

theorem passed_error (hz : limit ≠ some 0) :
    passed skip limit (.error e :: items) = .error e :: passed skip limit items := by
  rw [passed, met_error hz, passed]
  cases skip with
  | zero => rw [withoutRows_zero, withoutRows_zero]
  | succ skip => rfl

theorem passed_skipped (hz : limit ≠ some 0) :
    passed (skip + 1) limit (.ok b :: items) = passed skip limit items := by
  rw [passed, met_skipped hz]
  rfl

theorem passed_shown (hz : limit ≠ some 0) (ho : limit ≠ some 1) :
    passed 0 limit (.ok b :: items) = .ok b :: passed 0 (limit.map (· - 1)) items := by
  rw [passed, met_shown hz ho, passed, withoutRows_zero, withoutRows_zero]

theorem passed_nil (skip : Nat) (limit : Option Nat) : passed skip limit [] = [] := by
  rcases limit with _ | _ | n <;> cases skip <;> simp [passed, met, needed, uptoRow, withoutRows]

theorem passed_zero (skip : Nat) (items : List (Except PlanError Binding)) :
    passed skip (some 0) items = [] := by
  rw [passed, met_zero]
  cases skip <;> simp [withoutRows]

theorem met_last : met 0 (some 1) (.ok b :: items) = [.ok b] := by
  simp [met, needed, uptoRow]

theorem passed_last : passed 0 (some 1) (.ok b :: items) = [.ok b] := by
  rw [passed, met_last, withoutRows_zero]

theorem asked_nil (hz : limit ≠ some 0) : asked skip limit [] = 1 := by
  rw [asked, completes_nil hz]
  rfl

theorem asked_zero (skip : Nat) (items : List (Except PlanError Binding)) :
    asked skip (some 0) items = 0 := by
  rw [asked, if_pos (completes_zero skip items), met_zero]
  rfl

theorem asked_last : asked 0 (some 1) (.ok b :: items) = 1 := by
  rw [asked, if_pos completes_last, met_last]
  rfl

theorem asked_error (hz : limit ≠ some 0) :
    asked skip limit (.error e :: items) = asked skip limit items + 1 := by
  rw [asked, met_error hz, completes_error, asked]
  split <;> rfl

theorem asked_skipped (hz : limit ≠ some 0) :
    asked (skip + 1) limit (.ok b :: items) = asked skip limit items + 1 := by
  rw [asked, met_skipped hz, completes_skipped hz, asked]
  split <;> rfl

theorem asked_shown (hz : limit ≠ some 0) (ho : limit ≠ some 1) :
    asked 0 limit (.ok b :: items) = asked 0 (limit.map (· - 1)) items + 1 := by
  rw [asked, met_shown hz ho, completes_shown hz ho, asked]
  split <;> rfl

/-- A slice along its input: failures change nothing, a row is left out, shown, or shown as the last
one. -/
@[elab_as_elim] theorem slice_induction
    {P : Nat → Option Nat → List (Except PlanError Binding) → Prop}
    (zero : ∀ {skip items}, P skip (some 0) items)
    (nil : ∀ {skip limit}, limit ≠ some 0 → P skip limit [])
    (error : ∀ {skip limit e items}, limit ≠ some 0 → P skip limit items →
      P skip limit (.error e :: items))
    (skipped : ∀ {skip limit b items}, limit ≠ some 0 → P skip limit items →
      P (skip + 1) limit (.ok b :: items))
    (last : ∀ {b items}, P 0 (some 1) (.ok b :: items))
    (shown : ∀ {limit b items}, limit ≠ some 0 → limit ≠ some 1 →
      P 0 (limit.map (· - 1)) items → P 0 limit (.ok b :: items))
    (skip : Nat) (limit : Option Nat) (items : List (Except PlanError Binding)) :
    P skip limit items := by
  induction items generalizing skip limit with
  | nil =>
    by_cases hz : limit = some 0
    · exact hz ▸ zero
    · exact nil hz
  | cons x items ih =>
    by_cases hz : limit = some 0
    · exact hz ▸ zero
    cases x with
    | error e => exact error hz (ih skip limit)
    | ok b =>
      cases skip with
      | succ skip => exact skipped hz (ih skip limit)
      | zero =>
        by_cases ho : limit = some 1
        · exact ho ▸ last
        · exact shown hz ho (ih 0 _)

/-- Nothing is passed on of what comes when the slice is complete. -/
theorem passed_append_of_completes {before : List (Except PlanError Binding)}
    (h : completes skip limit before = true) (rest : List (Except PlanError Binding)) :
    passed skip limit (before ++ rest) = passed skip limit before := by
  induction skip, limit, before using slice_induction with
  | zero => rw [passed_zero, passed_zero]
  | nil hz => rw [completes_nil hz] at h; cases h
  | error hz ih =>
    rw [completes_error] at h
    rw [List.cons_append, passed_error hz, passed_error hz, ih h]
  | skipped hz ih =>
    rw [completes_skipped hz] at h
    rw [List.cons_append, passed_skipped hz, passed_skipped hz, ih h]
  | last => rw [List.cons_append, passed_last, passed_last]
  | shown hz ho ih =>
    rw [completes_shown hz ho] at h
    rw [List.cons_append, passed_shown hz ho, passed_shown hz ho, ih h]

/-- A failure that comes before the slice is complete is passed on behind what is passed on of what
came before it. -/
theorem passed_append_error {before : List (Except PlanError Binding)}
    (h : completes skip limit before = false) (e : PlanError)
    (rest : List (Except PlanError Binding)) :
    ∃ tail, passed skip limit (before ++ .error e :: rest) =
      passed skip limit before ++ .error e :: tail := by
  induction skip, limit, before using slice_induction with
  | zero => rw [completes_zero] at h; cases h
  | nil hz => exact ⟨_, by rw [List.nil_append, passed_error hz, passed_nil]; rfl⟩
  | error hz ih =>
    rw [completes_error] at h
    obtain ⟨tail, ih⟩ := ih h
    exact ⟨tail, by rw [List.cons_append, passed_error hz, passed_error hz, ih]; rfl⟩
  | skipped hz ih =>
    rw [completes_skipped hz] at h
    obtain ⟨tail, ih⟩ := ih h
    exact ⟨tail, by rw [List.cons_append, passed_skipped hz, passed_skipped hz, ih]⟩
  | last => rw [completes_last] at h; cases h
  | shown hz ho ih =>
    rw [completes_shown hz ho] at h
    obtain ⟨tail, ih⟩ := ih h
    exact ⟨tail, by rw [List.cons_append, passed_shown hz ho, passed_shown hz ho, ih]; rfl⟩

/-- A complete slice has shown a row. -/
theorem passed_ne_nil (hz : limit ≠ some 0) (h : completes skip limit items = true) :
    passed skip limit items ≠ [] := by
  intro hnil
  have hrows := okRows_passed skip limit items
  rw [hnil] at hrows
  rcases limit with _ | _ | n
  · simp [completes, needed] at h
  · exact hz rfl
  · simp only [completes, needed, Option.any_some, decide_eq_true_eq] at h
    have hlength := congrArg List.length hrows
    simp [slice, okRows] at hlength h
    omega

theorem length_uptoRow_map_ok (k : Nat) (l : List Binding) :
    (uptoRow k (l.map .ok)).length = min k l.length := by
  induction l generalizing k with
  | nil => cases k <;> simp [uptoRow]
  | cons b l ih => cases k <;> simp [uptoRow, ih]

/-- Over rows alone, a slice asks for none, for those up to its last one, or for all and the end. -/
theorem asked_rows (skip : Nat) (limit : Option Nat) (l : List Binding) :
    asked skip limit (l.map .ok) =
      match limit with
      | some 0 => 0
      | some n => if skip + n ≤ l.length then skip + n else l.length + 1
      | none => l.length + 1 := by
  have hrows : okRows (l.map .ok) = l := by
    simp [okRows, List.filterMap_map, Function.comp_def, Except.toOption]
  rcases limit with _ | _ | n
  · simp [asked, completes, needed]
  · exact asked_zero _ _
  · simp only [asked, completes, needed, Option.any_some, decide_eq_true_eq, hrows, met,
      Option.elim_some, length_uptoRow_map_ok, List.length_map]
    split <;> split <;> omega

end Rows

end SparqlAlgebra
