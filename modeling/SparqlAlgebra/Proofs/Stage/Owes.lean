import Mathlib.Data.List.Flatten
import SparqlAlgebra.Proofs.Stage.Build
import SparqlAlgebra.Proofs.Stage.Schedule

/-!
What a stage still owes: the rows it shows from now on if nothing disturbs it. A step that succeeds
pays them, whether the token is up or down; a step that fails strikes some of them off, if it strikes
where the stage forgives it. So whatever a schedule shows has been owed.
-/

namespace SparqlAlgebra

theorem Gathering.arrange_nil {rule : Gathering} (h : rule.forgives = true) (fs : Functions) :
    rule.arrange fs [] = [] := by
  cases rule with
  | sort keys => simp [arrange, Rows.sort]
  | group vars aggs =>
    have hvars : vars.isEmpty = false := by simpa [forgives] using h
    simp [arrange, Rows.group, Rows.groups, hvars]

theorem Pairing.flatMap_combine_nil {rule : Pairing} (h : rule.forgives = true) (fs : Functions)
    (l : List Binding) : (l.flatMap fun b => rule.combine fs b []) = [] := by
  cases rule with
  | inner => simp [combine]
  | _ => cases h

namespace Stage

/-- Released or run out, all the way down. -/
inductive Spent : Stage → Prop where
  | rows : Spent (rows [])
  | source : Spent (source [])
  | via {rule : RowRule} {fs : Functions} {input : Stage} :
    Spent input → Spent (via rule fs input true)

/-- The rows that a stage shows from now on, if nothing disturbs it. With `mild`, no failure in it
lets anything but rows get lost. -/
inductive Owes (mild : Bool) : Stage → List Binding → Prop where
  | spent {s : Stage} : Spent s → Owes mild s []
  | root : Owes mild root [∅]
  | rows (l : List Binding) : Owes mild (rows l) l
  | source (l : List Binding) : Owes mild (source (l.map .ok)) l
  | each {rule : Expansion} {input : Stage} {k : List Binding} {g : Binding → Stage}
    {f : Binding → List Binding} :
    (∀ b, rule.after b = rule) → (∀ b, (rule.expand b).1 = .flow (g b)) →
    (∀ b, Owes mild (g b) (f b)) → Owes mild input k → Owes mild (each rule input) (k.flatMap f)
  | eachOf {rule : Expansion} {input current : Stage} {k l : List Binding} :
    Owes mild (.each rule input) l → Owes mild current k →
    Owes mild (eachOf rule input current) (k ++ l)
  | chain {pending : List Seeded} {g : Seeded → Stage} {f : Seeded → List Binding} :
    (∀ p ∈ pending, (compile p.ctx p.op (.rows [p.seed])).result = .ok (g p)) →
    (∀ p ∈ pending, Owes mild (g p) (f p)) → Owes mild (chain pending) (pending.flatMap f)
  | chainOf {pending : List Seeded} {current : Stage} {k l : List Binding} :
    Owes mild (.chain pending) l → Owes mild current k →
    Owes mild (chainOf pending current) (k ++ l)
  | pair {rule : Pairing} {ctx : Context} {left right : Stage} {k r : List Binding} :
    (mild = true → rule.forgives = true) → Owes mild left k → Owes mild right r →
    Owes mild (pair rule ctx left right none [])
      (k.flatMap fun b => rule.combine ctx.functions b r)
  | paired {rule : Pairing} {ctx : Context} {left right : Stage} {k r : List Binding} :
    Owes mild left k →
    Owes mild (pair rule ctx left right (some r) [])
      (k.flatMap fun b => rule.combine ctx.functions b r)
  | queued {rule : Pairing} {ctx : Context} {left right : Stage} {loaded : Option (List Binding)}
    {b : Binding} {queue l : List Binding} :
    Owes mild (.pair rule ctx left right loaded queue) l →
    Owes mild (pair rule ctx left right loaded (b :: queue)) (b :: l)
  | pairLoad {rule : Pairing} {ctx : Context} {left right : Stage} {row : Binding}
    {acc k r : List Binding} :
    (mild = true → rule.forgives = true) → Owes mild left k → Owes mild right r →
    Owes mild (pairLoad rule ctx left right row acc)
      ((row :: k).flatMap fun b => rule.combine ctx.functions b (acc.reverse ++ r))
  | optional {part : Op} {ctx : Context} {left : Stage} {k : List Binding} {g : Binding → Stage}
    {f : Binding → List Binding} :
    mild = false → (∀ b, (compile ctx part (.rows [b])).result = .ok (g b)) →
    (∀ b, Owes mild (g b) (f b)) → Owes mild left k →
    Owes mild (optional part ctx left) (k.flatMap fun b => if f b = [] then [b] else f b)
  | optionalOf {part : Op} {ctx : Context} {left current : Stage} {seed : Binding} {found : Bool}
    {k l : List Binding} :
    mild = false → Owes mild (.optional part ctx left) l → Owes mild current k →
    Owes mild (optionalOf part ctx left seed current found)
      ((if found = false ∧ k = [] then [seed] else k) ++ l)
  | gather {rule : Gathering} {ctx : Context} {input : Stage} {acc k : List Binding} :
    (mild = true → rule.forgives = true) → Owes mild input k →
    Owes mild (gather rule ctx input acc) (rule.arrange ctx.functions (acc.reverse ++ k))
  | gathered (input : Stage) (l : List Binding) : Owes mild (gathered input l) l
  | filter {e : Expr} {fs : Functions} {input : Stage} {k : List Binding} :
    Owes mild input k → Owes mild (via (.filter e) fs input false) (k.filter fun b => e.holds fs b)

variable {mild raised : Bool} {s : Stage} {k l : List Binding}

theorem Spent.close (h : Spent s) : Spent s.close := by
  cases h with
  | rows => exact .rows
  | source => exact .source
  | via h => exact .via h

theorem Spent.shows (h : Spent s) (raised : Bool) :
    ∃ t, Shows raised s .finished t ∧ Spent t := by
  induction h with
  | rows => exact ⟨_, ⟨rfl, rfl⟩, .rows⟩
  | source => exact ⟨_, ⟨rfl, rfl⟩, .source⟩
  | @via rule fs input _ ih =>
    obtain ⟨t, ht, hs⟩ := ih
    refine ⟨.via rule fs t true, ?_, .via hs⟩
    simp [Shows, step_via, Move.via, Move.within, ht.1, ht.2]

theorem Owes.spent_close (h : Owes mild s l) : Spent s.close := by
  induction h with
  | spent h => exact h.close
  | source l => exact .source
  | filter _ ih => exact .via ih
  | _ => exact .rows

theorem Owes.queue {rule : Pairing} {ctx : Context} {left right : Stage}
    {loaded : Option (List Binding)} (h : Owes mild (.pair rule ctx left right loaded []) l)
    (queue : List Binding) : Owes mild (.pair rule ctx left right loaded queue) (queue ++ l) := by
  induction queue with
  | nil => exact h
  | cons b queue ih => exact .queued ih

/-- Undisturbed, a stage shows what it owes. -/
theorem Owes.emits (h : Owes mild s l) : Emits false s l none := by
  induction h with
  | spent h =>
    obtain ⟨t, ht, -⟩ := h.shows false
    exact .finished ht
  | root => exact emits_root
  | rows l => exact emits_rows l
  | source l =>
    induction l with
    | nil => exact .finished ⟨rfl, rfl⟩
    | cons b l ih => exact .row ⟨rfl, rfl⟩ ih
  | @each rule input k g f hr he _ _ hg hi =>
    exact emits_each hr hi fun b _ => ⟨g b, he b, hg b⟩
  | eachOf _ _ hi hc => exact emits_eachOf hc hi
  | @chain pending g f hc _ hg => exact emits_chain fun p hp => ⟨g p, hc p hp, hg p hp⟩
  | chainOf _ _ hp hc => exact emits_chainOf hc hp
  | pair _ _ _ hl hr => exact emits_pair (Bool.and_false _) hl hr
  | paired _ hl => exact emits_pair_loaded _ _ hl
  | queued _ ih => exact .row ⟨rfl, rfl⟩ ih
  | pairLoad _ _ _ hl hr => exact emits_pairLoad (Bool.and_false _) hl hr
  | @optional part ctx left k g f _ hc _ _ hg hl =>
    exact emits_optional hl fun b _ => ⟨g b, hc b, hg b⟩
  | @optionalOf part ctx left current seed found k l _ _ _ hl hc =>
    cases found with
    | true => simpa using emits_optionalOf_found hc hl
    | false => simpa using emits_optionalOf hc hl
  | gather _ _ hi => exact emits_gather (Bool.and_false _) hi
  | gathered input l => exact emits_gathered input l
  | @filter e fs input k _ hi =>
    rw [← RowRule.treat_filter]
    exact emits_via hi

/-- After a failure while the right rows are loaded, no left row finds a right row any more. -/
theorem owes_lost {rule : Pairing} {ctx : Context} {left right : Stage}
    (hrule : rule.forgives = true) (hl : Owes mild left k) (hr : Spent right)
    (l : List Binding) :
    ∃ r, r.Sublist l ∧ Owes mild (.pair rule ctx left right none []) r := by
  have hp : Owes mild (.pair rule ctx left right none []) _ :=
    .pair (fun _ => hrule) hl (.spent hr)
  rw [Pairing.flatMap_combine_nil hrule] at hp
  exact ⟨[], List.nil_sublist l, hp⟩

theorem owes_regathered {rule : Gathering} {ctx : Context} {input : Stage}
    (hrule : rule.forgives = true) (hi : Spent input) (l : List Binding) :
    ∃ r, r.Sublist l ∧ Owes mild (.gather rule ctx input []) r := by
  have hg : Owes mild (.gather rule ctx input []) _ := .gather (fun _ => hrule) (.spent hi)
  rw [List.reverse_nil, List.nil_append, Gathering.arrange_nil hrule] at hg
  exact ⟨[], List.nil_sublist l, hg⟩

end Stage

open Stage

namespace Move

/-- The step of a stage that owes `l` shows the first of these rows, none of them yet, or the end
when there are none. A failure may strike off rows if it is forgiven, and leaves a stage that is
fit to be released in any case. -/
def Pays (mild : Bool) (m : Move) (l : List Binding) (forgiven : Bool) : Prop :=
  match m.signal with
  | .silent => m.stage.Owes mild l
  | .row b => ∃ k, l = b :: k ∧ m.stage.Owes mild k
  | .finished => l = [] ∧ m.stage.Owes mild []
  | .failed _ => Spent m.stage.close ∧ (forgiven = true → ∃ k, k.Sublist l ∧ m.stage.Owes mild k)

variable {mild forgiven : Bool} {m : Move} {k l : List Binding}

theorem pays_each {rule : Expansion} {g : Binding → Stage} {f : Binding → List Binding}
    (hr : ∀ b, rule.after b = rule) (he : ∀ b, (rule.expand b).1 = .flow (g b))
    (hg : ∀ b, (g b).Owes mild (f b)) (h : m.Pays mild k forgiven) :
    (m.each rule).Pays mild (k.flatMap f) forgiven := by
  have hi {s : Stage} {k : List Binding} (hs : s.Owes mild k) :
      (Stage.each rule s).Owes mild (k.flatMap f) :=
    .each hr he hg hs
  unfold Move.each
  rcases m with ⟨_ | b | _ | e, s, cost⟩
  · exact hi h
  · obtain ⟨k, rfl, hs⟩ := h
    have hb := he b
    dsimp only
    rcases hx : rule.expand b with ⟨x, extra⟩
    rw [hx] at hb
    subst hb
    rw [List.flatMap_cons]
    have hof : (Stage.eachOf rule s (g b)).Owes mild (f b ++ k.flatMap f) := .eachOf (hi hs) (hg b)
    exact (hr b).symm ▸ hof
  · obtain ⟨rfl, hs⟩ := h
    exact ⟨rfl, hi hs⟩
  · refine ⟨.rows, fun hf => ?_⟩
    obtain ⟨j, hj, hs⟩ := h.2 hf
    exact ⟨j.flatMap f, hj.flatMap f, hi hs⟩

theorem pays_eachOf {rule : Expansion} {input : Stage} (hi : (Stage.each rule input).Owes mild l)
    (h : m.Pays mild k forgiven) : (m.eachOf rule input).Pays mild (k ++ l) forgiven := by
  unfold Move.eachOf
  rcases m with ⟨_ | b | _ | e, s, cost⟩
  · exact .eachOf hi h
  · obtain ⟨k, rfl, hs⟩ := h
    exact ⟨k ++ l, rfl, .eachOf hi hs⟩
  · obtain ⟨rfl, -⟩ := h
    exact hi
  · refine ⟨.rows, fun hf => ?_⟩
    obtain ⟨j, hj, hs⟩ := h.2 hf
    exact ⟨j ++ l, hj.append_right l, .eachOf hi hs⟩

theorem pays_chainOf {pending : List Seeded} (hp : (Stage.chain pending).Owes mild l)
    (h : m.Pays mild k forgiven) : (m.chainOf pending).Pays mild (k ++ l) forgiven := by
  unfold Move.chainOf
  rcases m with ⟨_ | b | _ | e, s, cost⟩
  · exact .chainOf hp h
  · obtain ⟨k, rfl, hs⟩ := h
    exact ⟨k ++ l, rfl, .chainOf hp hs⟩
  · obtain ⟨rfl, -⟩ := h
    exact hp
  · refine ⟨.rows, fun hf => ?_⟩
    obtain ⟨j, hj, hs⟩ := h.2 hf
    exact ⟨j ++ l, hj.append_right l, .chainOf hp hs⟩

theorem pays_pair {rule : Pairing} {ctx : Context} {right : Stage} {r : List Binding}
    (hrule : mild = true → rule.forgives = true) (hr : right.Owes mild r)
    (h : m.Pays mild k forgiven) :
    (m.pair rule ctx right none).Pays mild
      (k.flatMap fun b => rule.combine ctx.functions b r) forgiven := by
  unfold Move.pair
  rcases m with ⟨_ | b | _ | e, s, cost⟩
  · exact .pair hrule h hr
  · obtain ⟨k, rfl, hs⟩ := h
    exact .pairLoad hrule hs hr
  · obtain ⟨rfl, hs⟩ := h
    exact ⟨rfl, .pair hrule hs hr⟩
  · refine ⟨.rows, fun hf => ?_⟩
    obtain ⟨j, hj, hs⟩ := h.2 hf
    exact ⟨_, hj.flatMap _, .pair hrule hs hr⟩

theorem pays_paired {rule : Pairing} {ctx : Context} {right : Stage} {r : List Binding}
    (h : m.Pays mild k forgiven) :
    (m.pair rule ctx right (some r)).Pays mild
      (k.flatMap fun b => rule.combine ctx.functions b r) forgiven := by
  unfold Move.pair
  rcases m with ⟨_ | b | _ | e, s, cost⟩
  · exact .paired h
  · obtain ⟨k, rfl, hs⟩ := h
    exact (Owes.paired hs).queue _
  · obtain ⟨rfl, hs⟩ := h
    exact ⟨rfl, .paired hs⟩
  · refine ⟨.rows, fun hf => ?_⟩
    obtain ⟨j, hj, hs⟩ := h.2 hf
    exact ⟨_, hj.flatMap _, .paired hs⟩

/-- Whatever strikes while the right rows are loaded closes their stage. -/
theorem pays_pairLoad {rule : Pairing} {ctx : Context} {left : Stage} {row : Binding}
    {acc r : List Binding} (hrule : mild = true → rule.forgives = true) (hl : left.Owes mild k)
    (h : m.Pays mild r forgiven) :
    (m.pairLoad rule ctx left row acc).Pays mild
      ((row :: k).flatMap fun b => rule.combine ctx.functions b (acc.reverse ++ r))
      rule.forgives := by
  unfold Move.pairLoad
  rcases m with ⟨_ | b | _ | e, s, cost⟩
  · exact .pairLoad hrule hl h
  · obtain ⟨r, rfl, hs⟩ := h
    have hload : (Stage.pairLoad rule ctx left s row (b :: acc)).Owes mild _ :=
      .pairLoad hrule hl hs
    rw [List.reverse_cons, List.append_assoc] at hload
    exact hload
  · obtain ⟨rfl, -⟩ := h
    rw [List.append_nil]
    exact (Owes.paired hl).queue _
  · exact ⟨.rows, fun hf => owes_lost hf hl h.1 _⟩

theorem pays_optional {part : Op} {ctx : Context} {g : Binding → Stage}
    {f : Binding → List Binding} (hmild : mild = false)
    (hc : ∀ b, (compile ctx part (rows [b])).result = .ok (g b))
    (hg : ∀ b, (g b).Owes mild (f b)) (h : m.Pays mild k forgiven) :
    (m.optional part ctx).Pays mild (k.flatMap fun b => if f b = [] then [b] else f b)
      forgiven := by
  have hi {s : Stage} {k : List Binding} (hs : s.Owes mild k) :
      (Stage.optional part ctx s).Owes mild
        (k.flatMap fun b => if f b = [] then [b] else f b) :=
    .optional hmild hc hg hs
  unfold Move.optional
  rcases m with ⟨_ | b | _ | e, s, cost⟩
  · exact hi h
  · obtain ⟨k, rfl, hs⟩ := h
    have hof : (Stage.optionalOf part ctx s b (g b) false).Owes mild _ :=
      .optionalOf hmild (hi hs) (hg b)
    simp only [true_and] at hof
    dsimp only
    rw [hc b]
    exact hof
  · obtain ⟨rfl, hs⟩ := h
    exact ⟨rfl, hi hs⟩
  · refine ⟨.rows, fun hf => ?_⟩
    obtain ⟨j, hj, hs⟩ := h.2 hf
    exact ⟨_, hj.flatMap _, hi hs⟩

theorem pays_optionalOf {part : Op} {ctx : Context} {left : Stage} {seed : Binding}
    {found : Bool} (hmild : mild = false) (hl : (Stage.optional part ctx left).Owes mild l)
    (h : m.Pays mild k forgiven) :
    (m.optionalOf part ctx left seed found).Pays mild
      ((if found = false ∧ k = [] then [seed] else k) ++ l) (found && forgiven) := by
  -- Once a row has come, only the rest of the part is owed.
  have hfound {s : Stage} {k : List Binding} (hs : s.Owes mild k) :
      (Stage.optionalOf part ctx left seed s true).Owes mild (k ++ l) := by
    have h : (Stage.optionalOf part ctx left seed s true).Owes mild _ :=
      .optionalOf hmild hl hs
    simpa using h
  unfold Move.optionalOf
  rcases m with ⟨_ | b | _ | e, s, cost⟩
  · exact .optionalOf hmild hl h
  · obtain ⟨k, rfl, hs⟩ := h
    exact ⟨k ++ l, by simp, hfound hs⟩
  · obtain ⟨rfl, -⟩ := h
    cases found with
    | true => exact hl
    | false => exact ⟨l, rfl, hl⟩
  · refine ⟨.rows, fun hf => ?_⟩
    obtain ⟨rfl, hf⟩ := Bool.and_eq_true_iff.1 hf
    obtain ⟨j, hj, hs⟩ := h.2 hf
    refine ⟨j ++ l, ?_, hfound hs⟩
    simpa using hj.append_right l

theorem pays_gather {rule : Gathering} {ctx : Context} {acc : List Binding}
    (hrule : mild = true → rule.forgives = true) (h : m.Pays mild k forgiven) :
    (m.gather rule ctx acc).Pays mild (rule.arrange ctx.functions (acc.reverse ++ k))
      rule.forgives := by
  unfold Move.gather
  rcases m with ⟨_ | b | _ | e, s, cost⟩
  · exact .gather hrule h
  · obtain ⟨k, rfl, hs⟩ := h
    have hmore : (Stage.gather rule ctx s (b :: acc)).Owes mild _ := .gather hrule hs
    rw [List.reverse_cons, List.append_assoc] at hmore
    exact hmore
  · obtain ⟨rfl, -⟩ := h
    rw [List.append_nil]
    exact .gathered _ _
  · exact ⟨.rows, fun hf => owes_regathered hf h.1 _⟩

theorem pays_filter {e : Expr} {fs : Functions} (h : m.Pays mild k forgiven) :
    (m.via (.filter e) fs false).Pays mild (k.filter fun b => e.holds fs b) forgiven := by
  unfold Move.via
  rcases m with ⟨_ | b | _ | err, s, cost⟩
  · exact .filter h
  · obtain ⟨k, rfl, hs⟩ := h
    rw [List.filter_cons]
    cases hb : e.holds fs b with
    | true =>
      simp only [RowRule.feed, hb]
      exact ⟨_, rfl, .filter hs⟩
    | false =>
      simp only [RowRule.feed, hb]
      exact .filter hs
  · obtain ⟨rfl, hs⟩ := h
    exact ⟨rfl, .filter hs⟩
  · refine ⟨.via h.1, fun hf => ?_⟩
    obtain ⟨j, hj, hs⟩ := h.2 hf
    exact ⟨_, hj.filter _, .filter hs⟩

end Move

namespace Stage

variable {mild raised : Bool} {s : Stage} {k l : List Binding}

theorem Owes.step (h : Owes mild s l) (raised : Bool) :
    (step raised s).Pays mild l s.forgives := by
  induction h with
  | @spent s h =>
    obtain ⟨t, ⟨hx, ht⟩, hs⟩ := h.shows raised
    unfold Move.Pays
    rw [hx, ht]
    exact ⟨rfl, .spent hs⟩
  | root => exact ⟨[], rfl, .rows []⟩
  | rows l =>
    cases l with
    | nil => exact ⟨rfl, .rows []⟩
    | cons b l => exact ⟨l, rfl, .rows l⟩
  | source l =>
    cases l with
    | nil => exact ⟨rfl, .source []⟩
    | cons b l => exact ⟨l, rfl, .source l⟩
  | each hr he hg _ _ hi => exact Move.pays_each hr he hg hi
  | eachOf hi _ _ hc => exact Move.pays_eachOf hi hc
  | @chain pending g f hc hg _ =>
    cases pending with
    | nil => exact ⟨rfl, .chain (f := f) hc hg⟩
    | cons p pending =>
      rw [step_chain_ok raised pending (hc p List.mem_cons_self)]
      have hrest : Owes mild (.chain pending) (pending.flatMap f) :=
        .chain (fun q hq => hc q (List.mem_cons_of_mem p hq))
          fun q hq => hg q (List.mem_cons_of_mem p hq)
      exact .chainOf hrest (hg p List.mem_cons_self)
  | chainOf hp _ _ hc => exact Move.pays_chainOf hp hc
  | pair hrule _ hr hl _ => exact Move.pays_pair hrule hr hl
  | paired _ hl => exact Move.pays_paired hl
  | queued h _ => exact ⟨_, rfl, h⟩
  | pairLoad hrule hl hr _ ih =>
    rw [step_pairLoad]
    split
    · exact ⟨.rows, fun hf => owes_lost hf hl hr.spent_close _⟩
    · exact Move.pays_pairLoad hrule hl ih
  | optional hmild hc hg _ _ hl => exact Move.pays_optional hmild hc hg hl
  | optionalOf hmild hl _ _ hc => exact Move.pays_optionalOf hmild hl hc
  | gather hrule hi ih =>
    rw [step_gather]
    split
    · exact ⟨.rows, fun hf => owes_regathered hf hi.spent_close _⟩
    · exact Move.pays_gather hrule ih
  | gathered input l =>
    cases l with
    | nil => exact ⟨rfl, .gathered input []⟩
    | cons b l => exact ⟨l, rfl, .gathered input l⟩
  | filter _ ih => exact Move.pays_filter ih

/-- A pull whose failure is forgiven shows a row that is owed, and leaves owed what comes after it;
a failed one shows none and may strike off some. -/
theorem Owes.pull (h : Owes mild s l) (spent : Tally)
    (hf : ((s.pull raised spent).outcome.isOk || (s.brink raised).forgives) = true) :
    ∃ k, ((s.pull raised spent).rows ++ k).Sublist l ∧ Owes mild (s.pull raised spent).stage k := by
  -- The induction is on the silent steps of the pull.
  induction s.ends generalizing spent with
  | intro s _ ih =>
    have hpays := h.step raised
    unfold Move.Pays at hpays
    cases hx : (s.step raised).signal with
    | silent =>
      rw [hx] at hpays
      rw [pull_of_silent hx] at hf ⊢
      rw [brink_of_silent hx] at hf
      exact ih _ (progress_silent hx) hpays _ hf
    | row b =>
      rw [hx] at hpays
      obtain ⟨k, rfl, hk⟩ := hpays
      rw [pull_of_row hx]
      exact ⟨k, List.Sublist.refl _, hk⟩
    | finished =>
      rw [hx] at hpays
      obtain ⟨rfl, hk⟩ := hpays
      rw [pull_of_finished hx]
      exact ⟨[], List.Sublist.refl _, hk⟩
    | failed e =>
      rw [hx] at hpays
      rw [pull_of_failed hx] at hf ⊢
      have hshown : (s.step raised).signal ≠ .silent := by
        rw [hx]
        intro e
        cases e
      rw [brink_of_shown hshown] at hf
      exact hpays.2 hf

/-- What a schedule shows has been owed, and comes in the order of the undisturbed rows. -/
theorem Owes.play {acts : List Act} (h : Owes mild s l) (hs : s.spared raised acts = true) :
    (s.play raised acts).Sublist l := by
  induction acts generalizing s l raised with
  | nil => exact List.nil_sublist l
  | cons act acts ih =>
    cases act with
    | next =>
      obtain ⟨hf, hs⟩ := Bool.and_eq_true_iff.1 hs
      obtain ⟨k, hk, ht⟩ := h.pull {} hf
      have hrest := ih ht hs
      exact (hrest.append_left _).trans hk
    | cancel => exact ih h hs
    | resume => exact ih h hs

theorem Spent.forgives (h : Spent s) : s.forgives = true := by
  induction h with
  | via _ ih => exact ih
  | _ => rfl

theorem Owes.forgives (h : Owes true s l) : s.forgives = true := by
  induction h with
  | spent h => exact h.forgives
  | each _ _ _ _ _ hi => exact hi
  | eachOf _ _ _ hc => exact hc
  | chainOf _ _ _ hc => exact hc
  | pair _ _ _ hl _ => exact hl
  | paired _ hl => exact hl
  | queued _ ih => exact ih
  | pairLoad hrule => exact hrule rfl
  | optional hmild => cases hmild
  | optionalOf hmild => cases hmild
  | gather hrule => exact hrule rfl
  | filter _ ih => exact ih
  | _ => rfl

/-- Silent steps do not leave the mild stages. -/
theorem Owes.forgives_brink (h : Owes true s l) (raised : Bool) :
    (s.brink raised).forgives = true := by
  induction s.ends with
  | intro s _ ih =>
    by_cases hx : (s.step raised).signal = .silent
    · have hpays := h.step raised
      unfold Move.Pays at hpays
      rw [hx] at hpays
      rw [brink_of_silent hx]
      exact ih _ (progress_silent hx) hpays
    · rw [brink_of_shown hx]
      exact h.forgives

/-- A mild stage is spared by every schedule. -/
theorem Owes.spared {acts : List Act} (h : Owes true s l) : s.spared raised acts = true := by
  induction acts generalizing s l raised with
  | nil => rfl
  | cons act acts ih =>
    cases act with
    | next =>
      have hf : ((s.pull raised).outcome.isOk || (s.brink raised).forgives) = true := by
        rw [h.forgives_brink raised, Bool.or_true]
      obtain ⟨k, -, ht⟩ := h.pull {} hf
      exact Bool.and_eq_true_iff.2 ⟨hf, ih ht⟩
    | cancel => exact ih h
    | resume => exact ih h

end Stage

end SparqlAlgebra
