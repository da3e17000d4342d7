import SparqlAlgebra.Proofs.Stage.Emits

/-!
The rows that a stage may show at any time, however it is stepped, failed and released on the way.
Pulls and runs show no others.
-/

namespace SparqlAlgebra

/-- The rows that a signal carries. -/
def Signal.rows : Signal → List Binding
  | .row b => [b]
  | _ => []

namespace Stage

/-- The stage shows the row now or later. It may be stepped with the token up or down, after its
end, after a failure and after its release. -/
inductive Yields : Stage → Binding → Prop where
  | here (raised : Bool) {s t : Stage} {b : Binding} : Shows raised s (.row b) t → Yields s b
  | later (raised : Bool) {s t : Stage} {x : Signal} {b : Binding} :
    Shows raised s x t → Yields t b → Yields s b
  | released {s : Stage} {b : Binding} : Yields s.close b → Yields s b

/-- The stage shows the row in one of its next `n` steps. A release takes no step. -/
inductive YieldsIn : Nat → Stage → Binding → Prop where
  | here (raised : Bool) {n : Nat} {s t : Stage} {b : Binding} :
    Shows raised s (.row b) t → YieldsIn (n + 1) s b
  | later (raised : Bool) {n : Nat} {s t : Stage} {x : Signal} {b : Binding} :
    Shows raised s x t → YieldsIn n t b → YieldsIn (n + 1) s b
  | released {n : Nat} {s : Stage} {b : Binding} : YieldsIn n s.close b → YieldsIn n s b

variable {raised : Bool} {s t : Stage} {b : Binding}

theorem YieldsIn.yields {n : Nat} (h : s.YieldsIn n b) : s.Yields b := by
  induction h with
  | here raised h => exact .here raised h
  | later raised h _ ih => exact .later raised h ih
  | released _ ih => exact .released ih

theorem YieldsIn.le {m n : Nat} (h : s.YieldsIn m b) (hmn : m ≤ n) : s.YieldsIn n b := by
  induction h generalizing n with
  | here raised h =>
    obtain ⟨k, rfl⟩ := Nat.exists_eq_add_of_le' hmn
    exact .here raised h
  | later raised h _ ih =>
    obtain ⟨k, rfl⟩ := Nat.exists_eq_add_of_le' hmn
    exact .later raised h (ih (Nat.le_add_left _ k))
  | released _ ih => exact .released (ih hmn)

theorem Yields.exists_in (h : s.Yields b) : ∃ n, s.YieldsIn n b := by
  induction h with
  | here raised h => exact ⟨1, .here raised h⟩
  | later raised h _ ih =>
    obtain ⟨n, hn⟩ := ih
    exact ⟨n + 1, .later raised h hn⟩
  | released _ ih =>
    obtain ⟨n, hn⟩ := ih
    exact ⟨n, .released hn⟩

theorem exists_emits (raised : Bool) (s : Stage) : ∃ l o, Emits raised s l o := by
  induction s.ends with
  | intro s _ ih =>
    cases hx : (step raised s).signal with
    | silent =>
      obtain ⟨l, o, h⟩ := ih _ (progress_silent hx)
      exact ⟨l, o, .silent ⟨hx, rfl⟩ h⟩
    | row b =>
      obtain ⟨l, o, h⟩ := ih _ (progress_row hx)
      exact ⟨b :: l, o, .row ⟨hx, rfl⟩ h⟩
    | finished => exact ⟨[], none, .finished ⟨hx, rfl⟩⟩
    | failed e => exact ⟨[], some e, .failed ⟨hx, rfl⟩⟩

/-- A pull shows rows of the stage, and so do all pulls after it. -/
theorem yields_of_pull {spent : Tally}
    (hb : (s.pull raised spent).outcome = .ok (some b) ∨ (s.pull raised spent).stage.Yields b) :
    s.Yields b := by
  -- Every stage comes to an end, so the silent steps of a pull do.
  induction s.ends generalizing spent with
  | intro s _ ih =>
    cases hx : (step raised s).signal with
    | silent =>
      rw [pull_of_silent hx] at hb
      exact .later raised ⟨hx, rfl⟩ (ih _ (progress_silent hx) hb)
    | row c =>
      rw [pull_of_row hx] at hb
      rcases hb with hb | hb
      · cases hb
        exact .here raised ⟨hx, rfl⟩
      · exact .later raised ⟨hx, rfl⟩ hb
    | finished =>
      rw [pull_of_finished hx] at hb
      rcases hb with hb | hb
      · cases hb
      · exact .later raised ⟨hx, rfl⟩ hb
    | failed e =>
      rw [pull_of_failed hx] at hb
      rcases hb with hb | hb
      · cases hb
      · exact .later raised ⟨hx, rfl⟩ hb

theorem Emits.yields {l : List Binding} {o : Option PlanError} (h : Emits raised s l o)
    (hb : b ∈ l) : s.Yields b := by
  induction h with
  | finished h => cases hb
  | failed h => cases hb
  | silent h _ ih => exact .later raised h (ih hb)
  | row h _ ih =>
    rcases List.mem_cons.1 hb with rfl | hb
    · exact .here raised h
    · exact .later raised h (ih hb)

/-- The rows of a run, be it cut off by a failure. -/
theorem yields_of_mem_run (hb : b ∈ (s.run raised).rows) : s.Yields b := by
  obtain ⟨l, o, h⟩ := exists_emits raised s
  rw [(h.run [] {}).1] at hb
  exact h.yields hb

/-- The rows of a stage, from what it shows next and what it leaves. -/
theorem yields_induction {Q : Stage → Prop} {P : Binding → Prop}
    (hstep : ∀ {raised s t x}, Q s → Shows raised s x t → (∀ b ∈ x.rows, P b) ∧ Q t)
    (hclose : ∀ {s}, Q s → Q s.close) (hs : Q s) (h : s.Yields b) : P b := by
  induction h with
  | here _ h => exact (hstep hs h).1 _ (List.mem_singleton.2 rfl)
  | later _ h _ ih => exact ih (hstep hs h).2
  | released _ ih => exact ih (hclose hs)

theorem yields_rows_iff {l : List Binding} : (rows l).Yields b ↔ b ∈ l := by
  constructor
  · apply yields_induction (Q := fun s => ∃ k ⊆ l, s = rows k) (P := (· ∈ l)) _ _
      ⟨l, List.Subset.refl l, rfl⟩
    · rintro raised s t x ⟨k, hk, rfl⟩ ⟨hx, ht⟩
      cases k with
      | nil =>
        subst hx ht
        exact ⟨List.forall_mem_nil _, [], hk, rfl⟩
      | cons c k =>
        subst hx ht
        have hc : c ∈ l := hk List.mem_cons_self
        exact ⟨List.forall_mem_singleton.2 hc, k, fun d hd => hk (List.mem_cons_of_mem c hd), rfl⟩
    · rintro s ⟨k, hk, rfl⟩
      exact ⟨[], List.nil_subset l, rfl⟩
  · intro h
    have he : Emits false (rows l) l none := emits_rows l
    exact he.yields h

theorem yields_root_iff : root.Yields b ↔ b = ∅ := by
  constructor
  · apply yields_induction (Q := fun s => s = root ∨ s = rows []) (P := (· = ∅)) _ _ (.inl rfl)
    · rintro raised s t x (rfl | rfl) ⟨rfl, rfl⟩
      · exact ⟨List.forall_mem_singleton.2 rfl, .inr rfl⟩
      · exact ⟨List.forall_mem_nil _, .inr rfl⟩
    · rintro s (rfl | rfl)
      · exact .inr rfl
      · exact .inr rfl
  · rintro rfl
    exact .here false ⟨rfl, rfl⟩

/-- A source shows its rows, those behind a failure too. -/
theorem yields_source_iff {items : List (Except PlanError Binding)} :
    (source items).Yields b ↔ .ok b ∈ items := by
  constructor
  · apply yields_induction (Q := fun s => ∃ k ⊆ items, s = source k) (P := (.ok · ∈ items)) _ _
      ⟨items, List.Subset.refl items, rfl⟩
    · rintro raised s t x ⟨k, hk, rfl⟩ ⟨hx, ht⟩
      rcases k with _ | ⟨e | c, k⟩
      · subst hx ht
        exact ⟨List.forall_mem_nil _, [], hk, rfl⟩
      · subst hx ht
        exact ⟨List.forall_mem_nil _, k, fun d hd => hk (List.mem_cons_of_mem _ hd), rfl⟩
      · subst hx ht
        have hc : .ok c ∈ items := hk List.mem_cons_self
        exact ⟨List.forall_mem_singleton.2 hc, k, fun d hd => hk (List.mem_cons_of_mem _ hd), rfl⟩
    · rintro s ⟨k, hk, rfl⟩
      exact ⟨[], List.nil_subset items, rfl⟩
  · intro h
    induction items with
    | nil => cases h
    | cons y items ih =>
      have hs : ∃ x, Shows false (source (y :: items)) x (source items) := by
        cases y with
        | ok c => exact ⟨_, rfl, rfl⟩
        | error e => exact ⟨_, rfl, rfl⟩
      rcases List.mem_cons.1 h with rfl | h
      · exact .here false ⟨rfl, rfl⟩
      · obtain ⟨x, hx⟩ := hs
        exact .later false hx (ih h)

end Stage

end SparqlAlgebra
