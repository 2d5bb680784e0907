import ArmBackend.Graph.Basic

/-!
# Outcomes of look-ups

A look-up of the graph succeeds or gives a fault. These lemmas read an outcome backwards: what each
step of a look-up that succeeds must have found, and which fault one gives that fails.
-/

namespace ArmBackend

variable {ε α β : Type}

theorem bind_eq_ok {x : Except ε α} {f : α → Except ε β} {b : β} :
    x >>= f = .ok b ↔ ∃ a, x = .ok a ∧ f a = .ok b := by
  cases x with
  | error e =>
    constructor
    · rintro ⟨⟩
    · rintro ⟨a, ⟨⟩, -⟩
  | ok a =>
    constructor
    · intro h
      exact ⟨a, rfl, h⟩
    · rintro ⟨a', ⟨⟩, h⟩
      exact h

@[simp]
theorem ok_bind {a : α} {f : α → Except ε β} : Except.ok a >>= f = f a :=
  rfl

/-- What comes after a look-up only matters where it succeeds. -/
theorem bind_congr_ok {x : Except ε α} {f f' : α → Except ε β}
    (h : ∀ a, x = .ok a → f a = f' a) : x >>= f = x >>= f' := by
  cases x with
  | error e => rfl
  | ok a => exact h a rfl

theorem pure_eq_ok {a b : α} : (pure a : Except ε α) = .ok b ↔ a = b :=
  ⟨Except.ok.inj, congrArg Except.ok⟩

theorem toOption_eq_some {x : Except ε α} {a : α} : x.toOption = some a ↔ x = .ok a := by
  cases x with
  | error e =>
    constructor
    · rintro ⟨⟩
    · rintro ⟨⟩
  | ok b => exact ⟨fun h => congrArg Except.ok (Option.some.inj h), fun h => by rw [h]; rfl⟩

/-- Steps that give the same results, or all fail, can be put in a row. -/
theorem toOption_bind_congr {x x' : Except ε α} {f f' : α → Except ε β}
    (hx : x.toOption = x'.toOption) (hf : ∀ a, x' = .ok a → (f a).toOption = (f' a).toOption) :
    (x >>= f).toOption = (x' >>= f').toOption := by
  cases x' with
  | error e' =>
    cases x with
    | error e => rfl
    | ok a => cases hx
  | ok a =>
    obtain rfl := toOption_eq_some.mp hx
    exact hf a rfl

/-- A check in front of a look-up has passed when the look-up succeeds. -/
theorem check_eq_ok {p : Prop} [Decidable p] {e : ε} {f : β → Except ε α} {x : Except ε α} {b : α} :
    (if p then throw e >>= f else x) = .ok b ↔ ¬p ∧ x = .ok b := by
  by_cases hp : p
  · simp only [hp, if_true, not_true_eq_false, false_and, iff_false]
    intro h
    cases h
  · simp only [hp, if_false, not_false_eq_true, true_and]

/-! ## Faults -/

/-- Whether a fault says that a graph is malformed. -/
def Fault.isMalformed (f : Fault) : Bool :=
  match f.cause with
  | .malformed _ _ _ | .invalidGraph _ => true
  | _ => false

@[simp]
theorem Fault.isMalformed_within (f : Fault) (context : String) :
    (f.within context).isMalformed = f.isMalformed := by
  unfold Fault.within
  split <;> rfl

section

variable {g : Graph} {n : Node} {id : NodeId} {f : Fault}

theorem Graph.node_fault (h : g.node id = .error f) : f = .outOfRange := by
  unfold Graph.node at h
  split at h <;> cases h
  rfl

theorem Node.input_fault {i : Int} (h : n.input i = .error f) : f = .outOfRange := by
  unfold Node.input at h
  split at h
  · cases h
    rfl
  · split at h <;> cases h
    rfl

theorem Node.controlIn_fault (h : n.controlIn = .error f) : f = .outOfRange := by
  unfold Node.controlIn at h
  split at h
  · cases h
  · exact Node.input_fault h

end

end ArmBackend
