import Mathlib.Data.List.Forall2
import SparqlAlgebra.Proofs.Op.Alike
import SparqlAlgebra.Proofs.Stage.Usage

/-!
Stages that are alike take the same steps: they show the same, cost the same, and what they leave is
alike again.
-/

namespace SparqlAlgebra

open Stage

variable {c d : Config}

/-- What a row is expanded to, up to the configuration in the contexts. -/
inductive Expanded.Alike (c d : Config) : Expanded → Expanded → Prop where
  | flow {s t : Stage} : s.Alike c d t → Alike c d (.flow s) (.flow t)
  | hold {s t : Stage} (ctx : Context) : s.Alike c d t →
    Alike c d (.hold (ctx.under c) s) (.hold (ctx.under d) t)
  | failed (e : PlanError) : Alike c d (.failed e) (.failed e)

namespace Expansion

theorem Alike.after {rule rule' : Expansion} (h : rule.Alike c d rule') (b : Binding) :
    (rule.after b).Alike c d (rule'.after b) := by
  cases h with
  | procedure p earlier => exact .procedure p _
  | triple t g => exact .triple t g
  | path p g => exact .path p g
  | union ctx h => exact .union ctx h
  | graph name ctx h => exact .graph name ctx h
  | service endpoint silent ctx h => exact .service endpoint silent ctx h

theorem alike_flowing {x y : Compiled} (h : x.Alike c d y) :
    (flowing x).1.Alike c d (flowing y).1 ∧ (flowing x).2 = (flowing y).2 := by
  cases h with
  | ok tally h => exact ⟨.flow h, rfl⟩
  | error e tally => exact ⟨.failed e, rfl⟩

theorem alike_holding {x y : Compiled} (h : x.Alike c d y) (ctx : Context) (b : Binding) :
    (holding (ctx.under c) b x).1.Alike c d (holding (ctx.under d) b y).1 ∧
      (holding (ctx.under c) b x).2 = (holding (ctx.under d) b y).2 := by
  cases h with
  | ok tally h => exact ⟨.hold ctx h, rfl⟩
  | error e tally =>
    cases e with
    | cancelled => exact ⟨.failed _, rfl⟩
    | _ => exact ⟨.flow (.refl _), rfl⟩

/-- An endpoint is asked under both configurations or under neither. -/
theorem endpointData_under (hcd : c.serviceEnabled = d.serviceEnabled) (endpoint : Slot)
    (ctx : Context) (b : Binding) :
    endpointData endpoint (ctx.under c) b = endpointData endpoint (ctx.under d) b := by
  unfold endpointData Context.under
  rw [hcd]

theorem alike_pending {α : Type} {f g : α → Seeded} {l : List α}
    (h : ∀ a ∈ l, Seeded.Alike c d (f a) (g a)) :
    (chain (l.map f)).Alike c d (chain (l.map g)) := by
  refine .chain ?_
  rw [List.forall₂_map_left_iff, List.forall₂_map_right_iff, List.forall₂_same]
  exact h

/-- The same graphs are asked under both configurations. -/
theorem inGraphs_under {sub : Op} (h : sub.alike c d = true) (name : Slot) (ctx : Context)
    (b : Binding) :
    (∃ g, inGraphs name sub (ctx.under c) b = .inr g ∧
        inGraphs name sub (ctx.under d) b = .inr g) ∨
      ∃ s t, inGraphs name sub (ctx.under c) b = .inl s ∧
        inGraphs name sub (ctx.under d) b = .inl t ∧ s.Alike c d t := by
  have hdata (x : Config) : (ctx.under x).dataset = ctx.dataset := rfl
  unfold inGraphs
  rw [hdata, hdata]
  cases name.resolve b with
  | some t =>
    dsimp only
    cases ctx.dataset.named.get? t with
    | some g => exact .inl ⟨g, rfl, rfl⟩
    | none => exact .inr ⟨_, _, rfl, rfl, .refl _⟩
  | none =>
    cases name with
    | term t => exact .inr ⟨_, _, rfl, rfl, .refl _⟩
    | var v =>
      refine .inr ⟨_, _, rfl, rfl, alike_pending fun e _ => ?_⟩
      exact .intro (b.insert v e.1) { ctx with graph := e.2 } h

/-- The same row is expanded to the same, at the same cost. -/
theorem Alike.expand (hcd : c.serviceEnabled = d.serviceEnabled) {rule rule' : Expansion}
    (h : rule.Alike c d rule') (b : Binding) :
    (rule.expand b).1.Alike c d (rule'.expand b).1 ∧ (rule.expand b).2 = (rule'.expand b).2 := by
  cases h with
  | triple t g => exact ⟨.flow (.refl _), rfl⟩
  | path p g => exact ⟨.flow (.refl _), rfl⟩
  | procedure p earlier =>
    cases hp : p.answer earlier b with
    | ok l =>
      rw [expand_procedure_ok hp]
      exact ⟨.flow (.refl _), rfl⟩
    | error e =>
      rw [expand_procedure_error hp]
      exact ⟨.failed e, rfl⟩
  | @union branches ctx h =>
    exact ⟨.flow (alike_pending fun op ho => .intro b ctx (h op ho)), rfl⟩
  | @graph name sub ctx h =>
    rcases inGraphs_under h name ctx b with ⟨g, hc, hd⟩ | ⟨s, t, hc, hd, hst⟩
    · rw [expand_graph_inr hc, expand_graph_inr hd]
      exact alike_flowing (Op.parallel sub h { ctx with graph := g } _ _ (.refl _))
    · rw [expand_graph_inl hc, expand_graph_inl hd]
      exact ⟨.flow hst, rfl⟩
  | @service endpoint sub silent ctx h =>
    have hrequest : (request endpoint sub (ctx.under c) b).Alike c d
        (request endpoint sub (ctx.under d) b) := by
      unfold request
      rw [endpointData_under hcd]
      cases endpointData endpoint (ctx.under d) b with
      | error e => exact .error e _
      | ok data => exact Op.parallel sub h (ctx.remote data) _ _ (.refl _)
    cases silent with
    | true => exact alike_holding hrequest ctx b
    | false => exact alike_flowing hrequest

end Expansion

namespace Move

/-- Steps that show the same and cost the same, and leave stages that are alike. -/
inductive Alike (c d : Config) : Move → Move → Prop where
  | intro {s t : Stage} (signal : Signal) (tally : Tally) : s.Alike c d t →
    Alike c d { signal, stage := s, tally } { signal, stage := t, tally }

variable {m n : Move}

theorem Alike.parts (h : m.Alike c d n) :
    m.signal = n.signal ∧ m.tally = n.tally ∧ m.stage.Alike c d n.stage := by
  cases h with
  | intro signal tally h => exact ⟨rfl, rfl, h⟩

theorem Alike.turn (h : m.Alike c d n) (x : Signal) {s t : Stage} {cost cost' : Tally}
    (hst : s.Alike c d t) (hcost : cost = cost') : (m.turn x s cost).Alike c d (n.turn x t cost') := by
  cases h with
  | intro signal tally h =>
    subst hcost
    exact .intro x _ hst

theorem Alike.each (hcd : c.serviceEnabled = d.serviceEnabled) {rule rule' : Expansion}
    (h : m.Alike c d n) (hr : rule.Alike c d rule') :
    (m.each rule).Alike c d (n.each rule') := by
  obtain ⟨x, cost, h⟩ := h
  cases x with
  | row b =>
    have hafter := hr.after b
    have hexpand := hr.expand hcd b
    unfold Move.each
    dsimp only
    generalize rule.expand b = e, rule'.expand b = e' at hexpand
    obtain ⟨e, spent⟩ := e
    obtain ⟨e', spent'⟩ := e'
    obtain ⟨he, rfl⟩ := hexpand
    cases he with
    | flow hs => exact .intro _ _ (.eachOf hafter h hs)
    | hold ctx hs => exact .intro _ _ (.eachHeld ctx b [] hafter h hs)
    | failed e => exact .intro _ _ (.each hafter h)
  | _ => exact .intro _ _ (.each hr h)

theorem Alike.eachOf {rule rule' : Expansion} {input input' : Stage} (h : m.Alike c d n)
    (hr : rule.Alike c d rule') (hi : input.Alike c d input') :
    (m.eachOf rule input).Alike c d (n.eachOf rule' input') := by
  obtain ⟨x, cost, hs⟩ := h
  cases x with
  | finished => exact (Alike.intro _ cost hs).turn .silent (.each hr hi) hs.closeTally
  | _ => exact .intro _ _ (.eachOf hr hi hs)

theorem Alike.eachHeld {rule rule' : Expansion} {input input' : Stage} (h : m.Alike c d n)
    (ctx : Context) (b : Binding) (acc : List Binding) (hr : rule.Alike c d rule')
    (hi : input.Alike c d input') :
    (m.eachHeld rule (ctx.under c) input b acc).Alike c d
      (n.eachHeld rule' (ctx.under d) input' b acc) := by
  obtain ⟨x, cost, hs⟩ := h
  cases x with
  | silent => exact .intro _ _ (.eachHeld ctx b acc hr hi hs)
  | row r => exact .intro _ _ (.eachHeld ctx b (r :: acc) hr hi hs)
  | finished =>
    exact (Alike.intro _ cost hs).turn .silent (.eachOf hr hi (.refl _)) hs.closeTally
  | failed e =>
    cases e with
    | cancelled => exact (Alike.intro _ cost hs).turn _ (.each hr hi) hs.closeTally
    | _ => exact (Alike.intro _ cost hs).turn _ (.eachOf hr hi (.refl _)) hs.closeTally

theorem Alike.chainOf {pending pending' : List Seeded} (h : m.Alike c d n)
    (hp : List.Forall₂ (Seeded.Alike c d) pending pending') :
    (m.chainOf pending).Alike c d (n.chainOf pending') := by
  obtain ⟨x, cost, hs⟩ := h
  cases x with
  | finished => exact (Alike.intro _ cost hs).turn .silent (.chain hp) hs.closeTally
  | _ => exact .intro _ _ (.chainOf hp hs)

theorem Alike.pair {right right' : Stage} (h : m.Alike c d n) (rule : Pairing) (ctx : Context)
    (loaded : Option (List Binding)) (hr : right.Alike c d right') :
    (m.pair rule (ctx.under c) right loaded).Alike c d
      (n.pair rule (ctx.under d) right' loaded) := by
  obtain ⟨x, cost, hs⟩ := h
  cases x with
  | row b =>
    cases loaded with
    | some found => exact .intro _ _ (.pair rule ctx (some found) _ hs hr)
    | none => exact .intro _ _ (.pairLoad rule ctx b [] hs hr)
  | _ => exact .intro _ _ (.pair rule ctx loaded [] hs hr)

theorem Alike.pairLoad {left left' : Stage} (h : m.Alike c d n) (rule : Pairing) (ctx : Context)
    (b : Binding) (acc : List Binding) (hl : left.Alike c d left') :
    (m.pairLoad rule (ctx.under c) left b acc).Alike c d
      (n.pairLoad rule (ctx.under d) left' b acc) := by
  obtain ⟨x, cost, hs⟩ := h
  cases x with
  | silent => exact .intro _ _ (.pairLoad rule ctx b acc hl hs)
  | row r => exact .intro _ _ (.pairLoad rule ctx b (r :: acc) hl hs)
  | finished =>
    exact (Alike.intro _ cost hs).turn _ (.pair rule ctx (some acc.reverse) _ hl hs.close)
      (congrArg (· + rule.tally) hs.closeTally)
  | failed e =>
    exact (Alike.intro _ cost hs).turn _ (.pair rule ctx none [] hl hs.close) hs.closeTally

theorem Alike.optional {part : Op} (h : m.Alike c d n) (ctx : Context)
    (hpart : part.alike c d = true) :
    (m.optional part (ctx.under c)).Alike c d (n.optional part (ctx.under d)) := by
  obtain ⟨x, cost, hs⟩ := h
  cases x with
  | row b =>
    have hcompile := Op.parallel part hpart ctx (rows [b]) (rows [b]) (.refl _)
    unfold Move.optional
    dsimp only
    generalize compile (ctx.under c) part (rows [b]) = u,
      compile (ctx.under d) part (rows [b]) = v at hcompile
    cases hcompile with
    | ok tally ht => exact .intro _ _ (.optionalOf ctx b false hpart hs ht)
    | error e tally => exact .intro _ _ (.optional ctx hpart hs)
  | _ => exact .intro _ _ (.optional ctx hpart hs)

theorem Alike.optionalOf {part : Op} {left left' : Stage} (h : m.Alike c d n) (ctx : Context)
    (seed : Binding) (found : Bool) (hpart : part.alike c d = true) (hl : left.Alike c d left') :
    (m.optionalOf part (ctx.under c) left seed found).Alike c d
      (n.optionalOf part (ctx.under d) left' seed found) := by
  obtain ⟨x, cost, hs⟩ := h
  cases x with
  | row b => exact .intro _ _ (.optionalOf ctx seed true hpart hl hs)
  | finished => exact (Alike.intro _ cost hs).turn _ (.optional ctx hpart hl) hs.closeTally
  | _ => exact .intro _ _ (.optionalOf ctx seed found hpart hl hs)

theorem Alike.gather (h : m.Alike c d n) (rule : Gathering) (ctx : Context) (acc : List Binding) :
    (m.gather rule (ctx.under c) acc).Alike c d (n.gather rule (ctx.under d) acc) := by
  obtain ⟨x, cost, hs⟩ := h
  cases x with
  | silent => exact .intro _ _ (.gather rule ctx acc hs)
  | row b => exact .intro _ _ (.gather rule ctx (b :: acc) hs)
  | finished =>
    exact (Alike.intro _ cost hs).turn _ (.gathered _ hs.close)
      (congrArg (· + rule.tally) hs.closeTally)
  | failed e => exact (Alike.intro _ cost hs).turn _ (.gather rule ctx [] hs.close) hs.closeTally

theorem Alike.slice (h : m.Alike c d n) (skip : Nat) (limit : Option Nat) :
    (m.slice skip limit).Alike c d (n.slice skip limit) := by
  obtain ⟨x, cost, hs⟩ := h
  cases x with
  | row b =>
    unfold Move.slice
    dsimp only
    split
    · exact .intro _ _ (.slice _ limit hs)
    · split
      · exact (Alike.intro _ cost hs).turn _ (.slice 0 (some 0) hs.close) hs.closeTally
      · exact .intro _ _ (.slice 0 _ hs)
  | _ => exact .intro _ _ (.slice skip limit hs)

theorem Alike.via (h : m.Alike c d n) (rule : RowRule) (fs : Functions) (closed : Bool) :
    (m.via rule fs closed).Alike c d (n.via rule fs closed) := by
  obtain ⟨x, cost, hs⟩ := h
  cases x with
  | row b => exact .intro _ _ (.via _ fs closed hs)
  | _ => exact .intro _ _ (.via rule fs closed hs)

end Move

namespace Stage

variable {s t : Stage}

/-- The first waiting operator is compiled in the same way. -/
theorem alike_chain {p q : Seeded} {pending pending' : List Seeded} (h : p.Alike c d q)
    (hrest : List.Forall₂ (Seeded.Alike c d) pending pending') (raised : Bool) :
    (step raised (chain (p :: pending))).Alike c d (step raised (chain (q :: pending'))) := by
  obtain ⟨seed, ctx, hop⟩ := h
  rename_i op
  have hcompile := Op.parallel op hop ctx (rows [seed]) (rows [seed]) (.refl _)
  generalize hu : compile (ctx.under c) op (rows [seed]) = u,
    hv : compile (ctx.under d) op (rows [seed]) = v at hcompile
  cases hcompile with
  | ok tally hs =>
    rw [step_chain_ok raised pending (congrArg Compiled.result hu),
      step_chain_ok raised pending' (congrArg Compiled.result hv), hu, hv]
    exact .intro _ _ (.chainOf hrest hs)
  | error e tally =>
    rw [step_chain_error raised pending (congrArg Compiled.result hu),
      step_chain_error raised pending' (congrArg Compiled.result hv), hu, hv]
    exact .intro _ _ (.chain hrest)

/-- Stages that are alike take steps that are alike. -/
theorem Alike.step (hcd : c.serviceEnabled = d.serviceEnabled) (h : s.Alike c d t)
    (raised : Bool) : (step raised s).Alike c d (step raised t) := by
  -- Where a stage looks at the token it does so through its context, but not at the configuration.
  have hstopped (ctx : Context) : (ctx.under c).stopped raised = (ctx.under d).stopped raised := rfl
  induction h with
  | refl s => exact .intro _ _ (.refl _)
  | each hr _ ih => exact ih.each hcd hr
  | eachOf hr hi _ _ ih => exact ih.eachOf hr hi
  | eachHeld ctx row acc hr hi hh _ ih =>
    rw [step_eachHeld, step_eachHeld, hstopped, hh.closeTally]
    split
    · exact .intro _ _ (.each hr hi)
    · exact ih.eachHeld ctx row acc hr hi
  | chain hp =>
    cases hp with
    | nil => exact .intro _ _ (.refl _)
    | cons hp hrest => exact alike_chain hp hrest raised
  | chainOf hp _ ih => exact ih.chainOf hp
  | pair rule ctx loaded queue hl hr ih =>
    cases queue with
    | nil => exact ih.pair rule ctx loaded hr
    | cons b queue => exact .intro _ _ (.pair rule ctx loaded queue hl hr)
  | pairLoad rule ctx row acc hl hr _ ih =>
    rw [step_pairLoad, step_pairLoad, hstopped, hr.closeTally]
    split
    · exact .intro _ _ (.pair rule ctx none [] hl hr.close)
    · exact ih.pairLoad rule ctx row acc hl
  | optional ctx hpart _ ih => exact ih.optional ctx hpart
  | optionalOf ctx seed found hpart hl _ _ ih => exact ih.optionalOf ctx seed found hpart hl
  | gather rule ctx acc hi ih =>
    rw [step_gather, step_gather, hstopped, hi.closeTally]
    split
    · exact .intro _ _ (.gather rule ctx [] hi.close)
    · exact ih.gather rule ctx acc
  | gathered rest hi _ =>
    cases rest with
    | nil => exact .intro _ _ (.gathered [] hi)
    | cons b rest => exact .intro _ _ (.gathered rest hi)
  | slice skip limit hi ih =>
    rw [step_slice, step_slice, hi.closeTally]
    split
    · exact .intro _ _ (.refl _)
    · exact ih.slice skip limit
  | via rule fs closed _ ih => exact ih.via rule fs closed

variable (hcd : c.serviceEnabled = d.serviceEnabled)

include hcd

theorem Alike.pull (h : s.Alike c d t) (raised : Bool) (spent : Tally) :
    (s.pull raised spent).outcome = (t.pull raised spent).outcome ∧
      (s.pull raised spent).tally = (t.pull raised spent).tally ∧
      (s.pull raised spent).stage.Alike c d (t.pull raised spent).stage := by
  induction s.ends generalizing t spent with
  | intro s _ ih =>
    obtain ⟨hsignal, htally, hst⟩ := (h.step hcd raised).parts
    cases hx : (Stage.step raised s).signal with
    | silent =>
      rw [pull_of_silent hx, pull_of_silent (hsignal.symm.trans hx), htally]
      exact ih _ (progress_silent hx) hst _
    | row b =>
      rw [pull_of_row hx, pull_of_row (hsignal.symm.trans hx), htally]
      exact ⟨rfl, rfl, hst⟩
    | finished =>
      rw [pull_of_finished hx, pull_of_finished (hsignal.symm.trans hx), htally]
      exact ⟨rfl, rfl, hst⟩
    | failed e =>
      rw [pull_of_failed hx, pull_of_failed (hsignal.symm.trans hx), htally]
      exact ⟨rfl, rfl, hst⟩

theorem Alike.run (h : s.Alike c d t) (raised : Bool) (acc : List Binding) (spent : Tally) :
    (s.run raised acc spent).rows = (t.run raised acc spent).rows ∧
      (s.run raised acc spent).error = (t.run raised acc spent).error ∧
      (s.run raised acc spent).tally = (t.run raised acc spent).tally := by
  induction s.ends generalizing t acc spent with
  | intro s _ ih =>
    obtain ⟨hsignal, htally, hst⟩ := (h.step hcd raised).parts
    cases hx : (Stage.step raised s).signal with
    | silent =>
      rw [run_of_silent hx, run_of_silent (hsignal.symm.trans hx), htally]
      exact ih _ (progress_silent hx) hst acc _
    | row b =>
      rw [run_of_row hx, run_of_row (hsignal.symm.trans hx), htally]
      exact ih _ (progress_row hx) hst (b :: acc) _
    | finished =>
      rw [run_of_finished hx, run_of_finished (hsignal.symm.trans hx), htally]
      exact ⟨rfl, rfl, rfl⟩
    | failed e =>
      rw [run_of_failed hx, run_of_failed (hsignal.symm.trans hx), htally]
      exact ⟨rfl, rfl, rfl⟩

/-- Whatever a caller does, stages that are alike answer the same. -/
theorem Alike.answers (h : s.Alike c d t) (uses : List Use) : s.answers uses = t.answers uses := by
  induction uses generalizing s t with
  | nil => rfl
  | cons u uses ih =>
    cases u with
    | pull raised =>
      obtain ⟨ho, -, hst⟩ := h.pull hcd raised {}
      rw [Stage.answers, Stage.answers, ho, ih hst]
    | close => exact ih h.close

end Stage

end SparqlAlgebra
