-- Three-valued logic: true, false, and a truth that is not known.

namespace kleene

/-- `none` is the truth that is not known. -/
abbrev Truth := Option Bool

namespace Truth

def not : Truth → Truth := Option.map (!·)

/-- One false operand decides, and both have to be known for the rest. -/
def and : Truth → Truth → Truth
  | some false, _ => some false
  | _, some false => some false
  | some true, some true => some true
  | _, _ => none

/-- One true operand decides, and both have to be known for the rest. -/
def or : Truth → Truth → Truth
  | some true, _ => some true
  | _, some true => some true
  | some false, some false => some false
  | _, _ => none

theorem not_and (p q : Truth) : (p.and q).not = p.not.or q.not := by
  rcases p with _ | _ | _ <;> rcases q with _ | _ | _ <;> rfl

theorem not_or (p q : Truth) : (p.or q).not = p.not.and q.not := by
  rcases p with _ | _ | _ <;> rcases q with _ | _ | _ <;> rfl

theorem and_eq_true (p q : Truth) : p.and q = some true ↔ p = some true ∧ q = some true := by
  rcases p with _ | _ | _ <;> rcases q with _ | _ | _ <;> simp [and]

end Truth

end kleene
