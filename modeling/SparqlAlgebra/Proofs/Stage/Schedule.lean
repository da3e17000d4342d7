import SparqlAlgebra.Plan.Run

/-!
Schedules of pulls under a cancel token that goes up and down. A pull that fails may be followed by
others; whether the stage then goes on in good order depends on where the failure struck.
-/

namespace SparqlAlgebra

/-- What is done to a running plan. -/
inductive Act where
  | next
  | cancel
  | resume
deriving DecidableEq, Repr, Inhabited

/-- The row of a pull, if it gave one. -/
def Pull.rows (p : Pull) : List Binding :=
  match p.outcome with
  | .ok (some b) => [b]
  | _ => []

/-- Whether the right rows may be loaded once more from a side that is closed already, and hence
empty: an inner join then gives no row, but other pairings take the left row for unmatched. -/
def Pairing.forgives : Pairing → Bool
  | inner => true
  | optional _ => false
  | minus => false

/-- Whether nothing is made of no rows. A single group is there even then. -/
def Gathering.forgives : Gathering → Bool
  | sort _ => true
  | group vars _ => !vars.isEmpty

namespace Stage

/-- The rows of a schedule, the token being up or down before it. -/
def play (raised : Bool) (s : Stage) : List Act → List Binding
  | [] => []
  | .next :: acts => (s.pull raised).rows ++ play raised (s.pull raised).stage acts
  | .cancel :: acts => play true s acts
  | .resume :: acts => play false s acts

/-- The stage in which a pull takes its last step, the one with an outcome. -/
def brink (raised : Bool) (s : Stage) : Stage :=
  match _h : (step raised s).signal with
  | .silent => brink raised (step raised s).stage
  | _ => s
termination_by s
decreasing_by exact progress_silent _h

/-- Whether a failure that strikes in this stage costs nothing but rows. An optional part must have
shown a row before, or its seed is taken for unmatched. -/
def forgives : Stage → Bool
  | each _ input => forgives input
  | eachOf _ _ current => forgives current
  | chainOf _ current => forgives current
  | pair _ _ left _ _ _ => forgives left
  | pairLoad rule .. => rule.forgives
  | optional _ _ left => forgives left
  | optionalOf _ _ _ _ current found => found && forgives current
  | gather rule .. => rule.forgives
  | slice .. => false
  | via _ _ input _ => forgives input
  | _ => true

/-- Whether every failure of a schedule strikes where it costs nothing but rows. -/
def spared (raised : Bool) (s : Stage) : List Act → Bool
  | [] => true
  | .next :: acts =>
    ((s.pull raised).outcome.isOk || (s.brink raised).forgives) &&
      spared raised (s.pull raised).stage acts
  | .cancel :: acts => spared true s acts
  | .resume :: acts => spared false s acts

variable {raised : Bool} {s : Stage}

theorem brink_of_silent (h : (step raised s).signal = .silent) :
    s.brink raised = (step raised s).stage.brink raised := by
  rw [brink]
  split <;> simp_all

theorem brink_of_shown (h : (step raised s).signal ≠ .silent) : s.brink raised = s := by
  rw [brink]
  split <;> simp_all

end Stage

end SparqlAlgebra
