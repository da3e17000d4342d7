import Mathlib.Data.List.Dedup
import Mathlib.Data.List.Induction
import SparqlAlgebra.Proofs.Rows.Apart

/-!
Rows that a memory of recent rows lets through. The memory holds the rows that came by last, each
once and the latest one first, whether they were let through or not. So it knows a row exactly if
few other rows came by since the row was there before.
-/

namespace SparqlAlgebra.Rows

/-- The rows that are kept, where the rows before a row decide on it. -/
def pick (keep : List Binding → Binding → Bool) (l : List Binding) : List Binding :=
  (l.zipIdx.filter fun x => keep (l.take x.2) x.1).map (·.1)

/-- A row that was there before, and since then fewer than `w` different rows. -/
def Repeats (w : Nat) (before : List Binding) (b : Binding) : Prop :=
  ∃ earlier between, before = earlier ++ b :: between ∧ b ∉ between ∧ between.dedup.length < w

variable {keep : List Binding → Binding → Bool} {w : Nat} {p q l : List Binding} {b : Binding}

/-- A loop that decides on each row from the rows before it picks the rows. -/
theorem eq_pick {f : List Binding → List Binding → List Binding} (hnil : ∀ p, f p [] = [])
    (hcons : ∀ p b l, f p (b :: l) = (if keep p b then [b] else []) ++ f (p ++ [b]) l)
    (l : List Binding) : f [] l = pick keep l := by
  -- The rows that are left are numbered from the number of rows before them.
  have hrun : ∀ l p, f p l =
      ((l.zipIdx p.length).filter fun x => keep ((p ++ l).take x.2) x.1).map (·.1) := by
    intro l
    induction l with
    | nil => exact hnil
    | cons b l ih =>
      intro p
      have hbefore : (p ++ b :: l).take p.length = p := List.take_left
      have hnext : (l.zipIdx (p.length + 1)).filter
            (fun x => keep ((p ++ b :: l).take x.2) x.1) =
          (l.zipIdx (p ++ [b]).length).filter fun x => keep ((p ++ [b] ++ l).take x.2) x.1 := by
        rw [List.length_append, List.length_singleton, List.append_assoc, List.singleton_append]
      rw [hcons, ih, List.zipIdx_cons, List.filter_cons, hbefore, hnext]
      cases keep p b <;> rfl
  exact hrun l []

/-- What is known beforehand is missing among the first occurrences. -/
theorem firsts_cons_seen (b : Binding) (seen q : List Binding) :
    firsts (b :: seen) q = (firsts seen q).erase b := by
  induction q generalizing seen with
  | nil => rfl
  | cons x q ih =>
    rw [firsts, firsts]
    by_cases hx : x ∈ seen
    · rw [if_pos (List.mem_cons_of_mem b hx), if_pos hx, ih]
    · rw [if_neg hx]
      by_cases hb : x = b
      · rw [if_pos (hb ▸ List.mem_cons_self), hb, List.erase_cons_head]
      · have hnot : x ∉ b :: seen := by simp [hb, hx]
        have hswap : ∀ y, y ∈ x :: b :: seen ↔ y ∈ b :: x :: seen := fun y => by
          simp only [List.mem_cons]
          exact or_left_comm
        -- The row and the one that is known beforehand have changed places among what is known.
        rw [if_neg hnot, firsts_congr hswap, ih, List.erase_cons_tail (by simpa using hb)]

theorem firsts_cons (b : Binding) (q : List Binding) :
    firsts [] (b :: q) = b :: (firsts [] q).erase b := by
  rw [firsts, if_neg List.not_mem_nil, firsts_cons_seen]

theorem take_erase (n : Nat) (b : Binding) (l : List Binding) :
    (l.erase b).take n = if b ∈ l.take (n + 1) then (l.take (n + 1)).erase b else l.take n := by
  induction l generalizing n with
  | nil => simp
  | cons x l ih =>
    by_cases hx : x = b
    · subst hx
      simp
    · have hb : b ≠ x := Ne.symm hx
      cases n with
      | zero => simp [hx, hb]
      | succ n =>
        simp only [List.erase_cons, beq_iff_eq, hx, List.take_succ_cons, List.mem_cons, hb,
          if_false, false_or, ih]
        split <;> rfl

/-- The rows that came by last, each once, the latest one first. -/
def recent (w : Nat) (p : List Binding) : List Binding := (firsts [] p.reverse).take w

theorem length_firsts_reverse (q : List Binding) :
    (firsts [] q.reverse).length = q.dedup.length := by
  refine ((List.perm_ext_iff_of_nodup (nodup_firsts _ _) q.nodup_dedup).2 fun x => ?_).length_eq
  simp [mem_firsts]

/-- A row that was there before and not since then stands behind the rows that came since then. -/
theorem mem_recent_append (hb : b ∉ q) :
    b ∈ recent w (p ++ b :: q) ↔ q.dedup.length < w := by
  -- From the last row backwards: first the rows that came since then, then the row itself.
  have hsplit : firsts [] (p ++ b :: q).reverse =
      firsts [] q.reverse ++ b :: firsts (b :: q.reverse) p.reverse := by
    have hnot : b ∉ q.reverse ++ [] := by simpa using hb
    rw [List.reverse_append, List.reverse_cons, List.append_assoc, firsts_append, firsts_append,
      firsts, if_neg hnot, firsts]
    simp
  have hfirst : b ∉ firsts [] q.reverse := by simpa [mem_firsts] using hb
  rw [recent, hsplit, List.take_append, length_firsts_reverse, List.mem_append]
  refine (or_iff_right fun h => hfirst (List.mem_of_mem_take h)).trans ?_
  cases hw : w - q.dedup.length with
  | zero => simp; omega
  | succ n => simp; omega

/-- A row repeats exactly if it is among the rows that came by last. -/
theorem repeats_iff : Repeats w p b ↔ b ∈ recent w p := by
  constructor
  · rintro ⟨earlier, between, rfl, hnot, hlt⟩
    exact (mem_recent_append hnot).2 hlt
  · intro h
    have hp : b ∈ p := by
      have hfirst := List.mem_of_mem_take h
      simpa [mem_firsts] using hfirst
    obtain ⟨between, earlier, hsplit, hnot⟩ := List.eq_append_cons_of_mem (List.mem_reverse.2 hp)
    have hsplit : p = earlier.reverse ++ b :: between.reverse := by
      have hrev := congrArg List.reverse hsplit
      simpa using hrev
    have hnot : b ∉ between.reverse := by simpa using hnot
    rw [hsplit] at h
    exact ⟨_, _, hsplit, hnot, (mem_recent_append hnot).1 h⟩

/-- With room for all rows that came by, a row repeats as soon as it was there before. -/
theorem repeats_iff_mem (h : p.dedup.length ≤ w) : Repeats w p b ↔ b ∈ p := by
  have hall : recent w p = firsts [] p.reverse :=
    List.take_of_length_le (Nat.le_trans (Nat.le_of_eq (length_firsts_reverse p)) h)
  rw [repeats_iff, hall, mem_firsts, List.mem_reverse]
  exact and_iff_left List.not_mem_nil

theorem repeats_adjacent (hw : 0 < w) (p : List Binding) (b : Binding) : Repeats w (p ++ [b]) b :=
  ⟨p, [], rfl, List.not_mem_nil, hw⟩

theorem not_repeats_of_not_mem (hb : b ∉ p) : ¬ Repeats w p b := by
  rintro ⟨earlier, between, rfl, -⟩
  exact hb (List.mem_append_right earlier List.mem_cons_self)

instance : Decidable (Repeats w p b) :=
  decidable_of_iff ((recent w p).contains b = true) (List.contains_iff_mem.trans repeats_iff.symm)

/-- The rows without those that repeat. -/
def unrepeated (w : Nat) : List Binding → List Binding :=
  pick fun before b => ¬ Repeats w before b

namespace Memory

/-- A memory of the last `capacity` rows: what is known of a state, the latest row first. Asked for
a known row, it takes the row to the front; a new row goes to the front, and the row that was last
asked for or taken in longest ago leaves if there is no room for both. -/
structure Recent {σ : Type} (m : Memory σ) (capacity : Nat) (known : σ → List Binding) : Prop where
  get_known : ∀ s b, b ∈ known s →
    (m.get s b).1 = true ∧ known (m.get s b).2 = b :: (known s).erase b
  get_new : ∀ s b, b ∉ known s →
    (m.get s b).1 = false ∧ known (m.get s b).2 = known s
  put_new : ∀ s b, b ∉ known s → known (m.put s b) = (b :: known s).take capacity

theorem recent_window (capacity : Nat) : (window capacity).Recent capacity id where
  get_known s b hb := by
    have hget : (window capacity).get s b = (true, b :: s.erase b) :=
      if_pos (List.contains_iff_mem.2 hb)
    rw [hget]
    exact ⟨rfl, rfl⟩
  get_new s b hb := by
    have hget : (window capacity).get s b = (false, s) := if_neg (mt List.contains_iff_mem.1 hb)
    rw [hget]
    exact ⟨rfl, rfl⟩
  put_new _ _ _ := rfl

/-- The rows that the memory does not know when they come by. -/
def sift {σ : Type} (m : Memory σ) : σ → List Binding → List Binding
  | _, [] => []
  | s, b :: l => (if (m.meet s b).1 then [] else [b]) ++ sift m (m.meet s b).2 l

/-- The memory after some rows. -/
def after {σ : Type} (m : Memory σ) : σ → List Binding → σ := List.foldl fun s b => (m.meet s b).2

variable {σ : Type} {m : Memory σ} {known : σ → List Binding} {s : σ}

/-- One row: it is known if it is among the rows that came by last, and comes by last itself. -/
theorem Recent.meet (h : m.Recent (w + 1) known) (hs : known s = recent (w + 1) p) (b : Binding) :
    ((m.meet s b).1 = true ↔ b ∈ recent (w + 1) p) ∧
      known (m.meet s b).2 = recent (w + 1) (p ++ [b]) := by
  -- The row takes the first place. If it was among the others, it leaves them; otherwise the last
  -- of them has to go.
  have hnext : recent (w + 1) (p ++ [b]) =
      b :: if b ∈ recent (w + 1) p then (recent (w + 1) p).erase b
        else (firsts [] p.reverse).take w := by
    rw [recent, List.reverse_append, List.reverse_singleton, List.singleton_append, firsts_cons,
      List.take_succ_cons, take_erase]
    rfl
  rw [hnext, Memory.meet]
  by_cases hb : b ∈ recent (w + 1) p
  · obtain ⟨hfound, hknown⟩ := h.get_known s b (hs ▸ hb)
    rcases hget : m.get s b with ⟨found, s'⟩
    obtain rfl : found = true := by rw [hget] at hfound; exact hfound
    rw [hget] at hknown
    rw [if_pos hb, ← hs]
    exact ⟨iff_of_true rfl (hs ▸ hb), hknown⟩
  · obtain ⟨hmissed, hknown⟩ := h.get_new s b (hs ▸ hb)
    rcases hget : m.get s b with ⟨found, s'⟩
    obtain rfl : found = false := by rw [hget] at hmissed; exact hmissed
    rw [hget] at hknown
    have hput : known (m.put s' b) = b :: (firsts [] p.reverse).take w := by
      rw [h.put_new s' b (hknown ▸ hs ▸ hb), hknown, hs, List.take_succ_cons, recent,
        List.take_take, Nat.min_eq_left (Nat.le_succ w)]
    rw [if_neg hb]
    exact ⟨iff_of_false Bool.false_ne_true hb, hput⟩

/-- What a memory knows that knew no row at the start. -/
theorem Recent.after (h : m.Recent (w + 1) known) (hs : known s = []) (p : List Binding) :
    known (m.after s p) = recent (w + 1) p := by
  induction p using List.reverseRecOn with
  | nil => exact hs
  | append_singleton p b ih =>
    rw [Memory.after, List.foldl_append]
    exact (h.meet ih b).2

/-- A memory of recent rows lets those rows through that do not repeat. -/
theorem Recent.sift (h : m.Recent (w + 1) known) (hs : known s = []) (l : List Binding) :
    m.sift s l = unrepeated (w + 1) l := by
  refine eq_pick (f := fun p l => m.sift (m.after s p) l) (fun _ => rfl) (fun p b l => ?_) l
  have hafter : m.after s (p ++ [b]) = (m.meet (m.after s p) b).2 := by
    rw [Memory.after, List.foldl_append]
    rfl
  have hknown : (m.meet (m.after s p) b).1 = true ↔ Repeats (w + 1) p b :=
    (h.meet (h.after hs p) b).1.trans repeats_iff.symm
  show m.sift (m.after s p) (b :: l) = _
  rw [Memory.sift, hafter]
  by_cases hb : Repeats (w + 1) p b
  · rw [if_pos (hknown.2 hb)]
    simp [hb]
  · rw [if_neg (mt hknown.1 hb)]
    simp [hb]

end Memory

theorem firsts_eq_pick (l : List Binding) : firsts [] l = pick (fun before b => b ∉ before) l := by
  refine eq_pick (f := firsts) (fun _ => rfl) (fun p b l => ?_) l
  have hseen : ∀ x, x ∈ b :: p ↔ x ∈ p ++ [b] := fun x => by
    rw [List.mem_cons, List.mem_append, List.mem_singleton, or_comm]
  rw [firsts, ← firsts_congr hseen]
  by_cases hb : b ∈ p
  · have hsame : ∀ x, x ∈ p ↔ x ∈ b :: p := fun x =>
      ⟨List.mem_cons_of_mem b, fun hx => (List.mem_cons.1 hx).elim (fun e => e ▸ hb) id⟩
    rw [if_pos hb, firsts_congr hsame]
    simp [hb]
  · rw [if_neg hb]
    simp [hb]

/-- If the memory has room for all rows, the rows that do not repeat are the first occurrences. -/
theorem unrepeated_eq_firsts (h : l.dedup.length ≤ w) : unrepeated w l = firsts [] l := by
  have hkeep : ∀ x : Binding × Nat, Repeats w (l.take x.2) x.1 ↔ x.1 ∈ l.take x.2 := by
    intro x
    have hsub : (l.take x.2).dedup ⊆ l.dedup := fun b hb =>
      List.mem_dedup.2 (List.mem_of_mem_take (List.mem_dedup.1 hb))
    have hlen := (List.subperm_of_subset (List.nodup_dedup _) hsub).length_le
    exact repeats_iff_mem (Nat.le_trans hlen h)
  simp only [firsts_eq_pick, unrepeated, pick, hkeep]

end SparqlAlgebra.Rows
