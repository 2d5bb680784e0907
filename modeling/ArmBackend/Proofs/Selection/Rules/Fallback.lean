import ArmBackend.Proofs.Selection.Rules.Products

/-!
# Division without the instruction

Without an instruction that divides, quotients go through doubles. Doubles divide by zero in their
own way: a quotient is then an infinity, and comes back as an end of the range of words. So does the
one quotient that overflows. A remainder takes the product with the divisor off the dividend, so a
division by zero does not show in it.

## Results

* `Int32Op.throughDoubles_eq_iff` — where the two ways agree.
* `coverNode_fallback` — the code of quotients and remainders where the processor does not divide.
-/

namespace ArmBackend

/-- The value of an operator whose division goes through doubles. -/
def Int32Op.throughDoubles (n : Int32Op) (x y : BitVec 32) : BitVec 32 :=
  match n with
  | .div => signedThroughDoubles x y
  | .udiv => unsignedThroughDoubles x y
  | .mod => x - signedThroughDoubles x y * y
  | .umod => x - unsignedThroughDoubles x y * y
  | n => n.eval x y

/-- Whether a division through doubles shows in the value: a quotient by zero, or one that
overflows. -/
def Int32Op.Strays (n : Int32Op) (x y : BitVec 32) : Prop :=
  match n with
  | .div => y = 0 ∧ x ≠ 0 ∨ x = BitVec.intMin 32 ∧ y = -1
  | .udiv => y = 0 ∧ x ≠ 0
  | .mod => x = BitVec.intMin 32 ∧ y = -1
  | _ => False

instance (n : Int32Op) (x y : BitVec 32) : Decidable (n.Strays x y) := by
  unfold Int32Op.Strays
  split <;> infer_instance

theorem Int32Op.throughDoubles_eq_iff {n : Int32Op} {x y : BitVec 32} :
    n.throughDoubles x y = n.eval x y ↔ ¬n.Strays x y := by
  cases n with
  | div => exact signedThroughDoubles_eq_iff.trans not_or.symm
  | udiv => exact unsignedThroughDoubles_eq_iff
  | mod => exact signedRemainder_eq_iff
  | umod => exact iff_of_true unsignedRemainder_eq not_false
  | _ => exact iff_of_true rfl not_false

namespace Selection

variable {site : Site} {s : State} {id u w x y : NodeId}

/-- Where the processor does not divide, a quotient or a remainder is covered by code that goes
through doubles, and what that leaves is the interpreter's value except where a division through
doubles shows. -/
theorem coverNode_fallback (hWell : site.graph.WellFormed) (hs : s.Sound) {n : Int32Op}
    (hNode : site.graph.Applies (.int32 n) id x y) (hx : site.graph.Carries x u)
    (hy : site.graph.Carries y w) (hDivides : n ∈ [Int32Op.div, .udiv, .mod, .umod])
    (hSudiv : site.features.has .sudiv = false) :
    ∃ s', coverNode id site s = .ok ((), s') ∧ AddsResult site s s' id x y n.throughDoubles ∧
      ∀ l r, n.throughDoubles l r = n.eval l r ↔ ¬n.Strays l r := by
  -- without the instruction every division goes through doubles
  have hComputes : Divides site.features n n.throughDoubles := by
    simp only [List.mem_cons, List.not_mem_nil, or_false] at hDivides
    rcases hDivides with rfl | rfl | rfl | rfl
    · exact .div (.signedDoubles hSudiv)
    · exact .udiv (.unsignedDoubles hSudiv)
    · exact .mod (.signedDoubles hSudiv)
    · exact .umod (.unsignedDoubles hSudiv)
  obtain ⟨s', hRun, hAdds⟩ := coverNode_divides hWell hs hNode hx hy hComputes
  exact ⟨s', hRun, hAdds, fun _ _ => Int32Op.throughDoubles_eq_iff⟩

/-- The quotient of two parameters, where the processor does not divide. -/
def ratio : Site where
  graph := {
    nodes := #[{ op := .start }, .parameter 0 .int32, .parameter 1 .int32,
      .ofArity (.int32 .div) [1, 2], .ofArity .ret [3, 0, 0], .collect [4]]
    exit := some 5 }
  schedule := .single [1, 2, 3] 4
  features := .none

theorem coverNode_fallback_ratio :
    ∃ s', coverNode 3 ratio {} = .ok ((), s') ∧
      AddsResult ratio {} s' 3 1 2 Int32Op.div.throughDoubles ∧
        Int32Op.div.throughDoubles 7 2 = 3 := by
  have hWell : ratio.graph.WellFormed :=
    .of_nodes (by decide +kernel) (by decide +kernel) (by decide +kernel)
  have hNode : ratio.graph.Applies (.int32 .div) 3 1 2 := ⟨_, rfl, rfl, rfl⟩
  have hFirst : ratio.graph.HasOp 1 .parameter := ⟨_, rfl, rfl⟩
  have hSecond : ratio.graph.HasOp 2 .parameter := ⟨_, rfl, rfl⟩
  obtain ⟨s', hRun, hAdds, hAgree⟩ := coverNode_fallback hWell .empty hNode
    (.of_op hFirst nofun nofun) (.of_op hSecond nofun nofun) (by decide) (by decide)
  exact ⟨s', hRun, hAdds, (hAgree 7 2).mpr (by decide)⟩

/-- Registers with a dividend of five and a divisor of zero. -/
def fiveByZero : Bank where
  registers := fun r => if r = 1 then 5 else 0
  doubles := fun _ => .zero false
  stream := {}
  carry := false
  overflow := false

/-- Where the processor does not divide, five divided by zero is the greatest integer. -/
theorem coverNode_fallback_fiveByZero :
    ∃ s' b', coverNode 3 ratio {} = .ok ((), s') ∧ s'.vregs = [(2, 2), (1, 1), (3, 0)] ∧
      execute? s'.segment fiveByZero = some b' ∧ b'.registers 0 = 0x7fffffff ∧
        Int32Op.div.eval (fiveByZero.registers 1) (fiveByZero.registers 2) = 0 := by
  refine ⟨_, _, rfl, rfl, rfl, ?_, ?_⟩ <;> decide +kernel

end Selection
end ArmBackend
