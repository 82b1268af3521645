-- Objects that calls work on side by side. They look atomic when each call takes
-- effect at one moment between its start and its return, as if the others were
-- not there. A call may leave the rest of its work to another moment.

namespace atomic_object

variable {α ο ρ : Type}

/-- What a call has come to once it took effect: its result, or what it still has to do. -/
inductive Outcome (ο ρ : Type)
  | result (r : ρ)
  | rest (op : ο)

/-- Where a call stands: it has yet to take effect, its result is there, or it is over. -/
inductive Stage (ο ρ : Type)
  | pending (op : ο)
  | decided (r : ρ)
  | returned (r : ρ)

/-- What the callers see. Calls are numbered in the order in which they start. -/
inductive Moment (ο ρ : Type)
  | called (op : ο)
  | returned (call : Nat) (r : ρ)

def Outcome.stage : Outcome ο ρ → Stage ο ρ
  | .result r => .decided r
  | .rest op => .pending op

/-- The result of a call, as soon as it is there. -/
def Stage.result : Stage ο ρ → Option ρ
  | .pending _ => none
  | .decided r | .returned r => some r

/-- The histories of an object whose calls take effect one at a time, each between its start and
its return, with the object and the calls at their end. `does a op o a'` says what a call may do
to the object alone. -/
inductive LooksAtomic (start : α → Prop) (does : α → ο → Outcome ο ρ → α → Prop) :
    List (Moment ο ρ) → α → List (Stage ο ρ) → Prop
  | start {a : α} : start a → LooksAtomic start does [] a []
  | called {h : List (Moment ο ρ)} {a : α} {calls : List (Stage ο ρ)} (op : ο) :
      LooksAtomic start does h a calls →
      LooksAtomic start does (h ++ [.called op]) a (calls ++ [.pending op])
  | effect {h : List (Moment ο ρ)} {a a' : α} {calls : List (Stage ο ρ)} {i : Nat} {op : ο}
      {o : Outcome ο ρ} :
      LooksAtomic start does h a calls → calls[i]? = some (.pending op) → does a op o a' →
      LooksAtomic start does h a' (calls.set i o.stage)
  | returned {h : List (Moment ο ρ)} {a : α} {calls : List (Stage ο ρ)} {i : Nat} {r : ρ} :
      LooksAtomic start does h a calls → calls[i]? = some (.decided r) →
      LooksAtomic start does (h ++ [.returned i r]) a (calls.set i (.returned r))

section
variable {start : α → Prop} {does : α → ο → Outcome ο ρ → α → Prop} {a a' : α}
  {h : List (Moment ο ρ)} {calls : List (Stage ο ρ)}

/-- One step of a call, with the result that its caller sees at its end: nothing happens to the
object, the call takes effect, or it returns. -/
inductive Moves (does : α → ο → Outcome ο ρ → α → Prop) (a a' : α) :
    Stage ο ρ → Stage ο ρ → Option ρ → Prop
  | quiet {stage : Stage ο ρ} : a' = a → Moves does a a' stage stage none
  | effect {op : ο} {o : Outcome ο ρ} : does a op o a' → Moves does a a' (.pending op) o.stage none
  | returned {r : ρ} : a' = a → Moves does a a' (.decided r) (.returned r) (some r)

theorem LooksAtomic.move (L : LooksAtomic start does h a calls) {i : Nat} {stage stage' : Stage ο ρ}
    {r : Option ρ} (hi : calls[i]? = some stage) (M : Moves does a a' stage stage' r) :
    LooksAtomic start does (h ++ (r.map (Moment.returned i)).toList) a' (calls.set i stage') := by
  cases M with
  | quiet ha =>
    subst ha
    obtain ⟨hlt, rfl⟩ := List.getElem?_eq_some_iff.mp hi
    simpa using L
  | effect hdoes => simpa using L.effect hi hdoes
  | returned ha =>
    subst ha
    exact L.returned hi

end

end atomic_object
