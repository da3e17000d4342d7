import SparqlAlgebra.Plan.Compile

/-!
One step of a stage. A step reads at most one row of one input; between two steps nothing is hidden
but the state of the stage.
-/

namespace SparqlAlgebra

/-- What a step shows: nothing yet, a row, the end, or a failure. -/
inductive Signal where
  | silent
  | row (b : Binding)
  | finished
  | failed (e : PlanError)

/-- A step: what it shows, the stage after it, and what it cost. -/
structure Move where
  signal : Signal
  stage : Stage
  tally : Tally := {}

namespace Move

/-- The same step of a stage that holds this one. -/
def within (m : Move) (f : Stage → Stage) : Move := { m with stage := f m.stage }

/-- A step that shows something else and leaves another stage. -/
def turn (m : Move) (signal : Signal) (stage : Stage) (cost : Tally := {}) : Move :=
  { signal, stage, tally := m.tally + cost }

end Move

/-- What a row is expanded to. -/
inductive Expanded where
  /-- A stage whose rows are passed on as they come. -/
  | flow (s : Stage)
  /-- A stage whose rows count only if it comes to its end. -/
  | hold (ctx : Context) (s : Stage)
  | failed (e : PlanError)

namespace Expansion

/-- The term that an endpoint stands for and the dataset it answers from, or why there is none. -/
def endpointData (endpoint : Slot) (ctx : Context) (b : Binding) : Except PlanError Dataset :=
  match endpoint.resolve b with
  | none => .error (.service endpoint.text .unbound)
  | some t =>
    if !ctx.config.serviceEnabled then .error (.service t.text .disabled)
    else
      match ctx.services, t with
      | none, _ => .error (.service t.text .noExecutor)
      | some services, .iri name =>
        match services.get? name with
        | some d => .ok d
        | none => .error (.service name .unknown)
      | some _, _ => .error (.service t.text .notIri)

/-- The plan that a service runs for one row. -/
def request (endpoint : Slot) (sub : Op) (ctx : Context) (b : Binding) : Compiled :=
  match endpointData endpoint ctx b with
  | .error e => .fail e
  | .ok d => compile (ctx.remote d) sub (.rows [b])

/-- The operators that a graph clause runs for one row: in the graph of that name, or in every
named graph when the name is a variable without value. -/
def inGraphs (name : Slot) (sub : Op) (ctx : Context) (b : Binding) : Stage ⊕ Graph :=
  match name.resolve b with
  | some t =>
    match ctx.dataset.named.get? t with
    | some g => .inr g
    | none => .inl (.rows [])
  | none =>
    match name with
    | .term _ => .inl (.rows [])
    | .var v =>
      .inl <| .chain <| ctx.dataset.named.entries.map fun e =>
        { op := sub, seed := b.insert v e.1, ctx := { ctx with graph := e.2 } }

/-- What a compiled stage counts as when its rows are passed on as they come. -/
def flowing (c : Compiled) : Expanded × Tally :=
  match c.result with
  | .ok s => (.flow s, c.tally)
  | .error e => (.failed e, c.tally)

/-- What a compiled stage counts as when a failure gives back the row. -/
def holding (ctx : Context) (b : Binding) (c : Compiled) : Expanded × Tally :=
  match c.result with
  | .ok s => (.hold ctx s, c.tally)
  | .error .cancelled => (.failed .cancelled, c.tally)
  | .error _ => (.flow (.rows [b]), c.tally)

def expand (b : Binding) : Expansion → Expanded × Tally
  | triple t g => (.flow (.rows (t.extend g b)), { pattern := 1 })
  | path p g => (.flow (.rows (p.extend g b)), { pattern := 1 })
  | union branches ctx => (.flow (.chain (branches.map fun op => { op, seed := b, ctx })), {})
  | graph name sub ctx =>
    match inGraphs name sub ctx b with
    | .inl s => (.flow s, {})
    | .inr g => flowing (compile { ctx with graph := g } sub (.rows [b]))
  | service endpoint sub silent ctx =>
    let c := request endpoint sub ctx b
    if silent then holding ctx b c else flowing c
  | procedure p earlier =>
    match p.answer earlier b with
    | .ok rows => (.flow (.rows rows), {})
    | .error e => (.failed e, {})

theorem expand_graph_inl {name : Slot} {sub : Op} {ctx : Context} {b : Binding} {s : Stage}
    (h : inGraphs name sub ctx b = .inl s) :
    (graph name sub ctx).expand b = (.flow s, {}) := by simp only [expand, h]

theorem expand_graph_inr {name : Slot} {sub : Op} {ctx : Context} {b : Binding} {g : Graph}
    (h : inGraphs name sub ctx b = .inr g) :
    (graph name sub ctx).expand b =
      flowing (compile { ctx with graph := g } sub (.rows [b])) := by
  simp only [expand, h]

/-- A name that is left open takes the name of each graph in turn. -/
theorem inGraphs_open {v : Var} {b : Binding} (h : b.get? v = none) (sub : Op) (ctx : Context) :
    inGraphs (.var v) sub ctx b =
      .inl (.chain (ctx.dataset.named.entries.map fun e =>
        { op := sub, seed := b.insert v e.1, ctx := { ctx with graph := e.2 } })) := by
  have hn : (Slot.var v).resolve b = none := h
  simp only [inGraphs, hn]

theorem expand_procedure_ok {p : Procedure} {earlier l : List Binding} {b : Binding}
    (h : p.answer earlier b = .ok l) :
    (procedure p earlier).expand b = (.flow (.rows l), {}) := by
  simp only [expand, h]

theorem expand_procedure_error {p : Procedure} {earlier : List Binding} {b : Binding}
    {e : PlanError} (h : p.answer earlier b = .error e) :
    (procedure p earlier).expand b = (.failed e, {}) := by
  simp only [expand, h]

/-- The rule for the rows after `b`. -/
def after (b : Binding) : Expansion → Expansion
  | procedure p earlier => procedure p (earlier ++ [b])
  | r => r

end Expansion

namespace Move

open Stage

/-- After a step of the input of `each`: a row is expanded. -/
def each (rule : Expansion) (m : Move) : Move :=
  match m.signal with
  | .row b =>
    match rule.expand b with
    | (.flow s, cost) => m.turn .silent (eachOf (rule.after b) m.stage s) cost
    | (.hold ctx s, cost) => m.turn .silent (eachHeld (rule.after b) ctx m.stage b s []) cost
    | (.failed e, cost) => m.turn (.failed e) (.each (rule.after b) m.stage) cost
  | _ => m.within (.each rule)

def eachOf (rule : Expansion) (input : Stage) (m : Move) : Move :=
  match m.signal with
  | .finished => m.turn .silent (.each rule input) m.stage.closeTally
  | _ => m.within (.eachOf rule input)

/-- After a step of what `b` was expanded to, while its rows are held back: a failure other than
cancellation gives back `b` alone. -/
def eachHeld (rule : Expansion) (ctx : Context) (input : Stage) (b : Binding) (acc : List Binding)
    (m : Move) : Move :=
  match m.signal with
  | .silent => m.within fun s => .eachHeld rule ctx input b s acc
  | .row r => m.turn .silent (.eachHeld rule ctx input b m.stage (r :: acc))
  | .finished => m.turn .silent (.eachOf rule input (rows acc.reverse)) m.stage.closeTally
  | .failed .cancelled => m.turn (.failed .cancelled) (.each rule input) m.stage.closeTally
  | .failed _ => m.turn .silent (.eachOf rule input (rows [b])) m.stage.closeTally

def chainOf (pending : List Seeded) (m : Move) : Move :=
  match m.signal with
  | .finished => m.turn .silent (chain pending) m.stage.closeTally
  | _ => m.within (.chainOf pending)

/-- After a step of the left side: a row is paired, once the right rows are there. -/
def pair (rule : Pairing) (ctx : Context) (right : Stage) (loaded : Option (List Binding))
    (m : Move) : Move :=
  match m.signal, loaded with
  | .row b, some found =>
    m.turn .silent (.pair rule ctx m.stage right loaded (rule.combine ctx.functions b found))
  | .row b, none => m.turn .silent (.pairLoad rule ctx m.stage right b [])
  | _, _ => m.within fun s => .pair rule ctx s right loaded []

/-- After a step of the right side while it is loaded for the left row `b`. -/
def pairLoad (rule : Pairing) (ctx : Context) (left : Stage) (b : Binding) (acc : List Binding)
    (m : Move) : Move :=
  match m.signal with
  | .silent => m.within fun s => .pairLoad rule ctx left s b acc
  | .row r => m.turn .silent (.pairLoad rule ctx left m.stage b (r :: acc))
  | .finished =>
    m.turn .silent
      (.pair rule ctx left m.stage.close (some acc.reverse)
        (rule.combine ctx.functions b acc.reverse))
      (m.stage.closeTally + rule.tally)
  | .failed e => m.turn (.failed e) (.pair rule ctx left m.stage.close none []) m.stage.closeTally

/-- After a step of the left side: the optional part is compiled over a row. -/
def optional (part : Op) (ctx : Context) (m : Move) : Move :=
  match m.signal with
  | .row b =>
    let c := compile ctx part (rows [b])
    match c.result with
    | .ok s => m.turn .silent (.optionalOf part ctx m.stage b s false) c.tally
    | .error e => m.turn (.failed e) (.optional part ctx m.stage) c.tally
  | _ => m.within (.optional part ctx)

def optionalOf (part : Op) (ctx : Context) (left : Stage) (seed : Binding) (found : Bool)
    (m : Move) : Move :=
  match m.signal with
  | .row _ => m.within fun s => .optionalOf part ctx left seed s true
  | .finished =>
    m.turn (if found then .silent else .row seed) (.optional part ctx left) m.stage.closeTally
  | _ => m.within fun s => .optionalOf part ctx left seed s found

def gather (rule : Gathering) (ctx : Context) (acc : List Binding) (m : Move) : Move :=
  match m.signal with
  | .silent => m.within fun s => .gather rule ctx s acc
  | .row b => m.turn .silent (.gather rule ctx m.stage (b :: acc))
  | .finished =>
    m.turn .silent (gathered m.stage.close (rule.arrange ctx.functions acc.reverse))
      (m.stage.closeTally + rule.tally)
  | .failed e => m.turn (.failed e) (.gather rule ctx m.stage.close []) m.stage.closeTally

/-- After a step of an input that is sliced, the limit not yet reached. The input is released with
the last row. -/
def slice (skip : Nat) (limit : Option Nat) (m : Move) : Move :=
  match m.signal with
  | .row b =>
    if 0 < skip then m.turn .silent (.slice m.stage (skip - 1) limit)
    else if limit = some 1 then
      m.turn (.row b) (.slice m.stage.close 0 (some 0)) m.stage.closeTally
    else m.turn (.row b) (.slice m.stage 0 (limit.map (· - 1)))
  | _ => m.within fun s => .slice s skip limit

/-- After a step of an input whose rows are treated one by one. -/
def via (rule : RowRule) (fs : Functions) (closed : Bool) (m : Move) : Move :=
  match m.signal with
  | .row b =>
    let (rule', out) := rule.feed fs b
    m.turn (out.elim .silent .row) (.via rule' fs m.stage closed) rule.tally
  | _ => m.within fun s => .via rule fs s closed

end Move

namespace Stage

/-- One step. `raised` is whether the cancel token is up; only stages that collect rows look at
it. -/
def step (raised : Bool) : Stage → Move
  | root => { signal := .row ∅, stage := rows [] }
  | rows [] => { signal := .finished, stage := rows [] }
  | rows (b :: rest) => { signal := .row b, stage := rows rest }
  | source [] => { signal := .finished, stage := source [], tally := { pulls := 1 } }
  | source (.ok b :: rest) => { signal := .row b, stage := source rest, tally := { pulls := 1 } }
  | source (.error e :: rest) =>
    { signal := .failed e, stage := source rest, tally := { pulls := 1 } }
  | each rule input => (step raised input).each rule
  | eachOf rule input current => (step raised current).eachOf rule input
  | eachHeld rule ctx input b held acc =>
    if ctx.stopped raised then
      { signal := .failed .cancelled, stage := each rule input, tally := held.closeTally }
    else (step raised held).eachHeld rule ctx input b acc
  | chain [] => { signal := .finished, stage := chain [] }
  | chain (p :: pending) =>
    let c := compile p.ctx p.op (rows [p.seed])
    match c.result with
    | .ok s => { signal := .silent, stage := chainOf pending s, tally := c.tally }
    | .error e => { signal := .failed e, stage := chain pending, tally := c.tally }
  | chainOf pending current => (step raised current).chainOf pending
  | pair rule ctx left right loaded (b :: queue) =>
    { signal := .row b, stage := pair rule ctx left right loaded queue }
  | pair rule ctx left right loaded [] => (step raised left).pair rule ctx right loaded
  | pairLoad rule ctx left right b acc =>
    if ctx.stopped raised then
      { signal := .failed .cancelled, stage := pair rule ctx left right.close none []
        tally := right.closeTally }
    else (step raised right).pairLoad rule ctx left b acc
  | optional part ctx left => (step raised left).optional part ctx
  | optionalOf part ctx left seed current found =>
    (step raised current).optionalOf part ctx left seed found
  | gather rule ctx input acc =>
    if ctx.stopped raised then
      { signal := .failed .cancelled, stage := gather rule ctx input.close []
        tally := input.closeTally }
    else (step raised input).gather rule ctx acc
  | gathered input [] => { signal := .finished, stage := gathered input [] }
  | gathered input (b :: rest) => { signal := .row b, stage := gathered input rest }
  | slice input skip limit =>
    if limit = some 0 then { signal := .finished, stage := rows [], tally := input.closeTally }
    else (step raised input).slice skip limit
  | via rule fs input closed => (step raised input).via rule fs closed

section

variable (raised : Bool)

@[simp] theorem step_root : step raised root = { signal := .row ∅, stage := rows [] } := rfl

@[simp] theorem step_rows_nil : step raised (rows []) = { signal := .finished, stage := rows [] } :=
  rfl

@[simp] theorem step_rows_cons (b : Binding) (rest : List Binding) :
    step raised (rows (b :: rest)) = { signal := .row b, stage := rows rest } := rfl

@[simp] theorem step_source_nil :
    step raised (source []) =
      { signal := .finished, stage := source [], tally := { pulls := 1 } } := rfl

@[simp] theorem step_source_ok (b : Binding) (rest : List (Except PlanError Binding)) :
    step raised (source (.ok b :: rest)) =
      { signal := .row b, stage := source rest, tally := { pulls := 1 } } := rfl

@[simp] theorem step_source_error (e : PlanError) (rest : List (Except PlanError Binding)) :
    step raised (source (.error e :: rest)) =
      { signal := .failed e, stage := source rest, tally := { pulls := 1 } } := rfl

theorem step_each (rule : Expansion) (input : Stage) :
    step raised (each rule input) = (step raised input).each rule := rfl

theorem step_eachOf (rule : Expansion) (input current : Stage) :
    step raised (eachOf rule input current) = (step raised current).eachOf rule input := rfl

theorem step_eachHeld (rule : Expansion) (ctx : Context) (input : Stage) (b : Binding)
    (held : Stage) (acc : List Binding) :
    step raised (eachHeld rule ctx input b held acc) =
      if ctx.stopped raised then
        { signal := .failed .cancelled, stage := each rule input, tally := held.closeTally }
      else (step raised held).eachHeld rule ctx input b acc := rfl

@[simp] theorem step_chain_nil :
    step raised (chain []) = { signal := .finished, stage := chain [] } := rfl

theorem step_chain_ok {p : Seeded} {s : Stage} (pending : List Seeded)
    (h : (compile p.ctx p.op (rows [p.seed])).result = .ok s) :
    step raised (chain (p :: pending)) =
      { signal := .silent, stage := chainOf pending s
        tally := (compile p.ctx p.op (rows [p.seed])).tally } := by
  show (match (compile p.ctx p.op (rows [p.seed])).result with
    | .ok s => _
    | .error e => _ : Move) = _
  rw [h]

theorem step_chain_error {p : Seeded} {e : PlanError} (pending : List Seeded)
    (h : (compile p.ctx p.op (rows [p.seed])).result = .error e) :
    step raised (chain (p :: pending)) =
      { signal := .failed e, stage := chain pending
        tally := (compile p.ctx p.op (rows [p.seed])).tally } := by
  show (match (compile p.ctx p.op (rows [p.seed])).result with
    | .ok s => _
    | .error e => _ : Move) = _
  rw [h]

theorem step_chainOf (pending : List Seeded) (current : Stage) :
    step raised (chainOf pending current) = (step raised current).chainOf pending := rfl

@[simp] theorem step_pair_cons (rule : Pairing) (ctx : Context) (left right : Stage)
    (loaded : Option (List Binding)) (b : Binding) (queue : List Binding) :
    step raised (pair rule ctx left right loaded (b :: queue)) =
      { signal := .row b, stage := pair rule ctx left right loaded queue } := rfl

theorem step_pair_nil (rule : Pairing) (ctx : Context) (left right : Stage)
    (loaded : Option (List Binding)) :
    step raised (pair rule ctx left right loaded []) =
      (step raised left).pair rule ctx right loaded := rfl

theorem step_pairLoad (rule : Pairing) (ctx : Context) (left right : Stage) (b : Binding)
    (acc : List Binding) :
    step raised (pairLoad rule ctx left right b acc) =
      if ctx.stopped raised then
        { signal := .failed .cancelled, stage := pair rule ctx left right.close none []
          tally := right.closeTally }
      else (step raised right).pairLoad rule ctx left b acc := rfl

theorem step_optional (part : Op) (ctx : Context) (left : Stage) :
    step raised (optional part ctx left) = (step raised left).optional part ctx := rfl

theorem step_optionalOf (part : Op) (ctx : Context) (left : Stage) (seed : Binding)
    (current : Stage) (found : Bool) :
    step raised (optionalOf part ctx left seed current found) =
      (step raised current).optionalOf part ctx left seed found := rfl

theorem step_gather (rule : Gathering) (ctx : Context) (input : Stage) (acc : List Binding) :
    step raised (gather rule ctx input acc) =
      if ctx.stopped raised then
        { signal := .failed .cancelled, stage := gather rule ctx input.close []
          tally := input.closeTally }
      else (step raised input).gather rule ctx acc := rfl

@[simp] theorem step_gathered_nil (input : Stage) :
    step raised (gathered input []) = { signal := .finished, stage := gathered input [] } := rfl

@[simp] theorem step_gathered_cons (input : Stage) (b : Binding) (rest : List Binding) :
    step raised (gathered input (b :: rest)) = { signal := .row b, stage := gathered input rest } :=
  rfl

theorem step_slice (input : Stage) (skip : Nat) (limit : Option Nat) :
    step raised (slice input skip limit) =
      if limit = some 0 then { signal := .finished, stage := rows [], tally := input.closeTally }
      else (step raised input).slice skip limit := rfl

theorem step_via (rule : RowRule) (fs : Functions) (input : Stage) (closed : Bool) :
    step raised (via rule fs input closed) = (step raised input).via rule fs closed := rfl

end

end Stage

end SparqlAlgebra
