import SparqlAlgebra.Json.Decode

/-!
Laws of reading and writing JSON: what a reader makes of lists, absent values, pairs, variants and
records that were written. A reader of a type follows from the readers of its parts.
-/

namespace SparqlAlgebra.Json

variable {α β : Type}

/-- Reading gives back what was written. -/
def Restores (write : α → Json) (read : Json → Option α) : Prop := ∀ a, read (write a) = some a

theorem mapM_map {write : α → Json} {read : Json → Option α} {l : List α}
    (h : ∀ a ∈ l, read (write a) = some a) : (l.map write).mapM read = some l := by
  induction l with
  | nil => rfl
  | cons a l ih =>
    obtain ⟨ha, hl⟩ := List.forall_mem_cons.1 h
    rw [List.map_cons, List.mapM_cons, ha, ih hl]
    rfl

theorem nullable?_of_ne_null (read : Json → Option α) {j : Json} (h : j ≠ null) :
    nullable? read j = (read j).map some := by
  cases j with
  | null => exact (h rfl).elim
  | _ => rfl

namespace Restores

variable {write : α → Json} {read : Json → Option α}

theorem list (h : Restores write read) : Restores (ofList write) (list? read) :=
  fun _ => mapM_map fun a _ => h a

/-- A value that is not written as `null` can be told from an absent one. -/
theorem nullable (h : Restores write read) (hnull : ∀ a, write a ≠ null) :
    Restores (ofOption write) (nullable? read) := by
  intro o
  cases o with
  | none => rfl
  | some a =>
    have hread := nullable?_of_ne_null read (hnull a)
    exact hread.trans (congrArg (Option.map some) (h a))

theorem pair {write' : β → Json} {read' : Json → Option β} (h : Restores write read)
    (h' : Restores write' read') :
    Restores (fun p : α × β => arr [write p.1, write' p.2]) (pair? read read') := by
  intro p
  simp only [pair?, h p.1, h' p.2]
  rfl

end Restores

theorem restores_string : Restores str string? := fun _ => rfl

theorem restores_bool : Restores bool bool? := fun _ => rfl

theorem restores_uint64 : Restores uint64 uint64? := by
  intro n
  have hn : (n.toNat : Int) < 18446744073709551616 := by
    have := n.toNat_lt
    omega
  simp [uint64, uint64?, hn]

@[simp] theorem variant?_variant (name : String) (j : Json) :
    (variant name j).variant? = some (name, some j) := rfl

/-- The value of the field of that name, which stands at most once. -/
def field? (fields : List (String × Json)) (name : String) : Option (Option Json) :=
  match fields.filter (·.1 == name) with
  | [] => some none
  | [f] => some (some f.2)
  | _ => none

theorem field?_eq_lookup {fields : List (String × Json)} (h : (fields.map (·.1)).Nodup)
    (name : String) : field? fields name = some (fields.lookup name) := by
  induction fields with
  | nil => rfl
  | cons f fields ih =>
    obtain ⟨key, j⟩ := f
    obtain ⟨hkey, hrest⟩ := List.nodup_cons.1 h
    by_cases hname : key = name
    · -- No field behind the first one has its name.
      subst hname
      have hnone : fields.filter (·.1 == key) = [] := by
        refine List.filter_eq_nil_iff.2 fun e he heq => hkey ?_
        exact List.mem_map.2 ⟨e, he, beq_iff_eq.1 heq⟩
      simp [field?, hnone]
    · have hne : (key == name) = false := beq_eq_false_iff_ne.2 hname
      have hne' : (name == key) = false := beq_eq_false_iff_ne.2 (Ne.symm hname)
      rw [field?, List.filter_cons, hne, List.lookup_cons, hne']
      exact ih hrest

/-- In a written record the fields are found by their names. -/
theorem record_obj {fields : List (String × Json)} (h : (fields.map (·.1)).Nodup)
    (names : List String) :
    (obj fields).record names = some (names.map (List.lookup · fields)) := by
  have hfields : field? fields = fun name => some (fields.lookup name) :=
    funext (field?_eq_lookup h)
  have hrecord : (obj fields).record names = names.mapM (field? fields) := rfl
  rw [hrecord, hfields]
  exact List.mapM_pure

/-- A tagged value whose tag is written first. -/
theorem tagged_obj {tag content : String} (h : tag ≠ content) (t c : Json) :
    tagged tag content (obj [(tag, t), (content, c)]) = some (some t, some c) := by
  have hne : (content == tag) = false := beq_eq_false_iff_ne.2 (Ne.symm h)
  have hrecord : (obj [(tag, t), (content, c)]).record [tag, content] = some [some t, some c] := by
    rw [record_obj (by simp [h])]
    simp [List.lookup_cons, hne]
  simp [tagged, hrecord, h]

section Height

theorem height_pos (j : Json) : 0 < j.height := by
  cases j <;> exact Nat.succ_pos _

@[simp] theorem height_arr (items : List Json) : (arr items).height = heightItems items + 1 := rfl

@[simp] theorem height_obj (fields : List (String × Json)) :
    (obj fields).height = heightFields fields + 1 := rfl

@[simp] theorem height_variant (name : String) (j : Json) :
    (variant name j).height = j.height + 1 := congrArg (· + 1) (Nat.max_zero j.height)

theorem height_le_of_mem {items : List Json} {j : Json} (h : j ∈ items) :
    j.height ≤ heightItems items := by
  induction items with
  | nil => cases h
  | cons i items ih =>
    rw [heightItems]
    rcases List.mem_cons.1 h with rfl | h
    · exact Nat.le_max_left _ _
    · exact Nat.le_trans (ih h) (Nat.le_max_right _ _)

/-- Items that are not too deep are read one by one. -/
theorem list?_of_height {write : α → Json} {read : Json → Option α} {n : Nat} {l : List α}
    (hn : heightItems (l.map write) ≤ n) (h : ∀ a, (write a).height ≤ n → read (write a) = some a) :
    (ofList write l).list? read = some l := by
  refine mapM_map fun a ha => h a ?_
  exact Nat.le_trans (height_le_of_mem (List.mem_map_of_mem ha)) hn

end Height

end SparqlAlgebra.Json
