import ArmBackend.Proofs.Legality
import ArmBackend.Proofs.Structure
import Mathlib.Data.List.Basic

/-!
# Forms of operands

Whether an instruction is legal depends only on what its operands are: registers, numbers, addresses
or labels. A `Form` says what an operand is, and `Opcode.Suits` says which rows of forms an opcode
takes in an addressing mode. A rule of selection then settles both questions about an instruction,
that it is legal and that it points into the tables, by naming the forms of what it takes.

## Results

* `Suits.accepts` — operands of forms that suit an opcode are accepted by the processor.
* `Suits.flexible`, `Suits.access`, `Suits.field`, `Suits.plain` — the rows that selection uses.
-/

namespace ArmBackend

/-- What an operand is. -/
inductive Form
  | register
  | number (v : BitVec 32)
  /-- The address of a constant. -/
  | address
  | label
  deriving DecidableEq, Repr

/-- The tables of a stream grow: what an operand points to stays there. -/
structure Stream.Extends (s s' : Stream) : Prop where
  next_le : s.nextVreg ≤ s'.nextVreg
  immediates : s.immediates <+: s'.immediates
  constants : ∀ {r}, (s.constant? r).isSome → (s'.constant? r).isSome

namespace Stream

variable {s s' s'' : Stream} {o : Operand} {v : BitVec 32} {r : Int}

theorem Extends.refl (s : Stream) : s.Extends s where
  next_le := Nat.le_refl _
  immediates := List.prefix_rfl
  constants := id

theorem Extends.trans (h : s.Extends s') (h' : s'.Extends s'') : s.Extends s'' where
  next_le := Nat.le_trans h.next_le h'.next_le
  immediates := h.immediates.trans h'.immediates
  constants := fun hr => h'.constants (h.constants hr)

theorem HasVreg.mono (h : s.HasVreg r) (hExtends : s.Extends s') : s'.HasVreg r := by
  have hLe := hExtends.next_le
  obtain ⟨hPos, hLt⟩ := h
  exact ⟨hPos, by omega⟩

theorem Knows.mono (h : s.Knows o) (hExtends : s.Extends s') : s'.Knows o := by
  cases o with
  | vreg r location => exact HasVreg.mono h hExtends
  | immediate index =>
    have hLength := hExtends.immediates.length_le
    obtain ⟨hPos, hLt⟩ := h
    exact ⟨hPos, by omega⟩
  | constant r => exact ⟨h.1.mono hExtends, hExtends.constants h.2⟩
  | label block => trivial
  | unassigned kind index location => exact h

/-- The entry of a number in the table of immediates. -/
theorem isNumber_iff : s.IsNumber o v ↔ ∃ (i : Nat) (c : Constant), o = .immediate i ∧
    s.immediates[i]? = some c ∧ c.tag = .of .int32 ∧ (BitVec.ofInt 32 c.int).toInt = v.toInt := by
  unfold IsNumber
  constructor
  · rintro ⟨hImmediate, hInt⟩
    cases o with
    | immediate index =>
      unfold toInt32 toConstant Stream.immediate at hInt
      -- A number is filed at a place of the table that there is.
      by_cases hNeg : index < 0
      · simp only [hNeg, if_true] at hInt
        cases hInt
      · simp only [hNeg, if_false] at hInt
        cases hGet : s.immediates[index.toNat]? with
        | none =>
          rw [hGet] at hInt
          cases hInt
        | some c =>
          rw [hGet, ok_bind] at hInt
          by_cases hTag : c.tag = .of .int32
          · rw [if_pos hTag] at hInt
            refine ⟨index.toNat, c, ?_, hGet, hTag, pure_eq_ok.mp hInt⟩
            rw [Int.toNat_of_nonneg (Int.not_lt.mp hNeg)]
          · rw [if_neg hTag] at hInt
            cases hInt
    | vreg | constant | label | unassigned => cases hImmediate
  · rintro ⟨i, c, rfl, hGet, hTag, hInt⟩
    refine ⟨rfl, ?_⟩
    unfold toInt32 toConstant Stream.immediate
    have hPos : ¬(i : Int) < 0 := by omega
    simp only [hPos, if_false, Int.toNat_natCast, hGet, ok_bind, hTag, if_true]
    exact pure_eq_ok.mpr hInt

theorem IsNumber.mono (h : s.IsNumber o v) (hExtends : s.Extends s') : s'.IsNumber o v := by
  rw [isNumber_iff] at h ⊢
  obtain ⟨i, c, ho, hGet, hRest⟩ := h
  obtain ⟨more, hMore⟩ := hExtends.immediates
  refine ⟨i, c, ho, ?_, hRest⟩
  rw [← hMore, List.getElem?_append_left (List.getElem?_eq_some_iff.mp hGet).1]
  exact hGet

end Stream

namespace Form

/-- Whether an operand has a form, by the tables of a stream. -/
def Holds (s : Stream) (o : Operand) : Form → Prop
  | .register => ∃ (r : Nat) (location : Location), o = .vreg r location ∧ s.HasVreg r
  | .number v => s.IsNumber o v
  | .address => ∃ r : Nat, o = .constant r ∧ s.HasVreg r ∧ (s.constant? r).isSome
  | .label => ∃ b : Nat, o = .label b

variable {s s' : Stream} {o : Operand} {form : Form}

theorem Holds.vreg {r : Nat} (hr : s.HasVreg r) (location : Location) :
    Form.register.Holds s (.vreg r location) :=
  ⟨r, location, rfl, hr⟩

theorem Holds.mono (h : form.Holds s o) (hExtends : s.Extends s') : form.Holds s' o := by
  cases form with
  | register =>
    obtain ⟨r, location, rfl, hr⟩ := h
    exact ⟨r, location, rfl, hr.mono hExtends⟩
  | number v => exact Stream.IsNumber.mono h hExtends
  | address =>
    obtain ⟨r, rfl, hr, hConstant⟩ := h
    exact ⟨r, rfl, hr.mono hExtends, hExtends.constants hConstant⟩
  | label => exact h

/-- An operand of any form points into the tables. -/
theorem Holds.knows (h : form.Holds s o) : s.Knows o := by
  cases form with
  | register =>
    obtain ⟨r, location, rfl, hr⟩ := h
    exact hr
  | number v =>
    obtain ⟨i, c, rfl, hGet, -⟩ := Stream.isNumber_iff.mp h
    have hLt := (List.getElem?_eq_some_iff.mp hGet).1
    exact ⟨by omega, by omega⟩
  | address =>
    obtain ⟨r, rfl, hr, hConstant⟩ := h
    exact ⟨hr, hConstant⟩
  | label =>
    obtain ⟨b, rfl⟩ := h
    trivial

/-- Only numbers point into the table of immediates. -/
theorem Holds.isNumber (h : form.Holds s o) (ho : o.isImmediate) : ∃ v, form = .number v := by
  cases form with
  | number v => exact ⟨v, rfl⟩
  | register =>
    obtain ⟨r, location, rfl, -⟩ := h
    cases ho
  | address =>
    obtain ⟨r, rfl, -⟩ := h
    cases ho
  | label =>
    obtain ⟨b, rfl⟩ := h
    cases ho

end Form

/-! ## Rows of forms -/

/-- Whether an opcode takes operands of these forms: each slot has a number that fits and there is
no other number, a bit field lies within the word, and the processor has the opcode. -/
structure Opcode.Suits (op : Opcode) (features : Features) (mode : AddrMode) (forms : List Form) :
    Prop where
  numbers : ∀ k slot, op.slot? mode k = some slot →
    ∃ v, forms[k]? = some (.number v) ∧ slot.Admits op v
  elsewhere : ∀ (k : Nat) v, forms[k]? = some (.number v) → (op.slot? mode k).isSome
  field : op.IsField → ∃ v v', forms[1]? = some (.number v) ∧ forms[2]? = some (.number v') ∧
    0 ≤ v.toInt ∧ 1 ≤ v'.toInt ∧ v.toInt + v'.toInt ≤ 32
  feature : ∀ f, op.feature? = some f → features.has f

/-- What the flexible operand of an opcode can be. -/
inductive Opcode.Flexible (op : Opcode) : AddrMode → List Form → Prop
  | number {v : BitVec 32} (h : op.canBeImmediate v = true) : op.Flexible .immediate [.number v]
  | register : op.Flexible .register [.register]
  | shift {kind : ShiftKind} {v : BitVec 32} (h : kind.Allows v) :
      op.Flexible (.shiftImmediate kind) [.register, .number v]
  | shiftRegister (kind : ShiftKind) : op.Flexible (.shiftRegister kind) [.register, .register]

/-- Whether an opcode is a data processing instruction with `lead` operands in front of the flexible
one. -/
def Opcode.IsFlexible (op : Opcode) (lead : Nat) : Prop :=
  ∃ outputs, op.shape? = some { inputs := lead, outputs, extension := .operand2 }

namespace Opcode

variable {op : Opcode} {features : Features} {mode : AddrMode} {forms : List Form} {lead : Nat}

theorem IsFlexible.lead_eq (h : op.IsFlexible lead) : op.lead = lead := by
  obtain ⟨outputs, hShape⟩ := h
  unfold Opcode.lead
  rw [hShape]
  rfl

/-- Data processing instructions need no feature, are no bit field instructions and end no block. -/
theorem IsFlexible.basic (h : op.IsFlexible lead) :
    ¬op.IsField ∧ op.feature? = none ∧ op ≠ .jmp ∧ op ≠ .ret := by
  obtain ⟨outputs, hShape⟩ := h
  cases op <;> first
    | decide
    | cases hShape

theorem slot?_eq_none (hMode : mode ≠ .immediate ∧ mode ≠ .offsetImmediate ∧
    ∀ kind, mode ≠ .shiftImmediate kind) (hField : ¬op.IsField) (k : Nat) :
    op.slot? mode k = none := by
  unfold slot?
  split
  · exact absurd rfl hMode.1
  · exact absurd rfl (hMode.2.2 _)
  · exact absurd rfl hMode.2.1
  · rw [if_pos hField]

namespace Suits

/-- An instruction without numbers. -/
theorem plain (hMode : mode ≠ .immediate ∧ mode ≠ .offsetImmediate ∧
    ∀ kind, mode ≠ .shiftImmediate kind) (hField : ¬op.IsField)
    (hFeature : ∀ f, op.feature? = some f → features.has f)
    (hForms : ∀ v, Form.number v ∉ forms) : op.Suits features mode forms where
  numbers := by
    intro k slot hSlot
    rw [slot?_eq_none hMode hField] at hSlot
    cases hSlot
  elsewhere := by
    intro k v hk
    exact absurd (List.mem_of_getElem? hk) (hForms v)
  field := fun h => absurd h hField
  feature := hFeature

/-- An instruction with one slot, behind the operands `front`. -/
theorem single {slot : Slot} {v : BitVec 32} {front rest : List Form} (hField : ¬op.IsField)
    (hFeature : op.feature? = none)
    (hSlot : ∀ k, op.slot? mode k = if k = front.length then some slot else none)
    (hAdmits : slot.Admits op v) (hFront : ∀ w, Form.number w ∉ front)
    (hRest : ∀ w, Form.number w ∉ rest) : op.Suits features mode (front ++ .number v :: rest) where
  numbers := by
    intro k slot' hk
    rw [hSlot] at hk
    split at hk
    · next hEq =>
      cases hk
      refine ⟨v, ?_, hAdmits⟩
      rw [hEq, List.getElem?_append_right (Nat.le_refl _), Nat.sub_self]
      rfl
    · cases hk
  -- In front of the number and behind it there are only registers.
  elsewhere := by
    intro k w hk
    rw [hSlot]
    rcases Nat.lt_trichotomy k front.length with hLt | hEq | hGt
    · rw [List.getElem?_append_left hLt] at hk
      exact absurd (List.mem_of_getElem? hk) (hFront w)
    · rw [if_pos hEq]
      rfl
    · rw [List.getElem?_append_right (Nat.le_of_lt hGt)] at hk
      obtain ⟨j, hj⟩ : ∃ j, k - front.length = j + 1 := ⟨k - front.length - 1, by omega⟩
      rw [hj, List.getElem?_cons_succ] at hk
      exact absurd (List.mem_of_getElem? hk) (hRest w)
  field := fun h => absurd h hField
  feature := by
    intro f hf
    rw [hFeature] at hf
    cases hf

/-- Operands behind the last slot that are no numbers. -/
theorem append (h : op.Suits features mode forms) {more : List Form}
    (hMore : ∀ v, Form.number v ∉ more) : op.Suits features mode (forms ++ more) := by
  have hKeep : ∀ {k : Nat} {form : Form}, forms[k]? = some form →
      (forms ++ more)[k]? = some form := by
    intro k form hk
    rw [List.getElem?_append_left (List.getElem?_eq_some_iff.mp hk).1]
    exact hk
  refine ⟨?_, ?_, ?_, h.feature⟩
  · intro k slot hSlot
    obtain ⟨v, hk, hAdmits⟩ := h.numbers k slot hSlot
    exact ⟨v, hKeep hk, hAdmits⟩
  · -- a number among the forms is an old one, for none is added
    intro k v hk
    by_cases hLt : k < forms.length
    · rw [List.getElem?_append_left hLt] at hk
      exact h.elsewhere k v hk
    · rw [List.getElem?_append_right (Nat.not_lt.mp hLt)] at hk
      exact absurd (List.mem_of_getElem? hk) (hMore v)
  · intro hField
    obtain ⟨v, v', hv, hv', hSum⟩ := h.field hField
    exact ⟨v, v', hKeep hv, hKeep hv', hSum⟩

/-- A data processing instruction with its flexible operand. -/
theorem flexible (hOp : op.IsFlexible lead) (h : op.Flexible mode forms) :
    op.Suits features mode (List.replicate lead .register ++ forms) := by
  obtain ⟨hField, hFeature, -⟩ := hOp.basic
  have hNeeds : ∀ f, op.feature? = some f → features.has f := by
    intro f hf
    rw [hFeature] at hf
    cases hf
  -- A number stands in the flexible slot, the amount of a shift behind its register.
  cases h with
  | register => exact plain (by simp) hField hNeeds (by simp)
  | shiftRegister kind => exact plain (by simp) hField hNeeds (by simp)
  | number hv =>
    obtain ⟨outputs, hShape⟩ := id hOp
    have hEncodes : Slot.Admits op .flexible _ := encodes_of_canBeImmediate hShape rfl hv
    refine single hField hFeature ?_ hEncodes (by simp) (by simp)
    intro k
    rw [List.length_replicate, ← hOp.lead_eq]
    rfl
  | @shift kind v hv =>
    have hFront : List.replicate lead Form.register ++ [.register, .number v] =
        (List.replicate lead .register ++ [.register]) ++ [.number v] := by simp
    rw [hFront]
    have hAllows : Slot.Admits op (.amount kind) v := hv
    refine single hField hFeature ?_ hAllows (by simp) (by simp)
    intro k
    rw [List.length_append, List.length_replicate, ← hOp.lead_eq]
    rfl

/-- An access to memory at a number beside a base. -/
theorem access {shape : Shape} {v : BitVec 32} (hShape : op.shape? = some shape)
    (hOffset : shape.extension = .offset) (hv : op.canBeImmediate v = true) :
    op.Suits features .offsetImmediate [.register, .number v] := by
  have hBasic : ¬op.IsField ∧ op.feature? = none := by
    cases op <;> first
      | decide
      | cases hShape <;> cases hOffset
  have hReaches : Slot.Admits op .offset v := reaches_of_canBeImmediate hShape hOffset hv
  show op.Suits features .offsetImmediate ([.register] ++ .number v :: [])
  exact single hBasic.1 hBasic.2 (fun k => rfl) hReaches (by simp) (by simp)

/-- A bit field instruction. -/
theorem bits {v v' : BitVec 32} (hOp : op.IsField) (hFeature : features.has .armv7)
    (hLowest : 0 ≤ v.toInt) (hWidth : 1 ≤ v'.toInt) (hSum : v.toInt + v'.toInt ≤ 32) :
    op.Suits features .none [.register, .number v, .number v'] := by
  have hSlot : ∀ k, op.slot? .none k = if k = 1 ∨ k = 2 then some .field else none := by
    intro k
    show (if ¬op.IsField then _ else _) = _
    rw [if_neg (not_not.mpr hOp)]
  refine ⟨?_, ?_, fun _ => ⟨v, v', rfl, rfl, hLowest, hWidth, hSum⟩, ?_⟩
  · intro k slot hk
    rw [hSlot] at hk
    split at hk
    · next hPlace =>
      cases hk
      rcases hPlace with rfl | rfl
      · exact ⟨v, rfl, hLowest⟩
      · exact ⟨v', rfl, Int.le_trans (by decide) hWidth⟩
    · cases hk
  · intro k w hk
    rw [hSlot]
    -- The lowest bit and the width are the second and the third operand.
    rcases k with _ | _ | _ | k
    · cases hk
    · rfl
    · rfl
    · cases hk
  · intro f hf
    rcases hOp with rfl | rfl <;> cases hf <;> exact hFeature

/-- Operands of forms that suit an opcode are accepted by the processor. -/
theorem accepts {s : Stream} {inputs : List Operand} (h : op.Suits features mode forms)
    (hForms : List.Forall₂ (fun o (form : Form) => form.Holds s o) inputs forms) :
    op.Accepts features s mode inputs := by
  -- An operand and its form stand at the same place.
  have hOperand : ∀ {k : Nat} {form : Form}, forms[k]? = some form →
      ∃ o, inputs[k]? = some o ∧ form.Holds s o := by
    intro k form hk
    obtain ⟨hLt, hGet⟩ := List.getElem?_eq_some_iff.mp hk
    have hLt' : k < inputs.length := by rwa [hForms.length_eq]
    have hHolds := hForms.get hLt' hLt
    rw [List.get_eq_getElem, List.get_eq_getElem, hGet] at hHolds
    exact ⟨inputs[k], List.getElem?_eq_getElem hLt', hHolds⟩
  refine ⟨?_, ?_, ?_, h.feature⟩
  · intro k slot hSlot
    obtain ⟨v, hk, hAdmits⟩ := h.numbers k slot hSlot
    obtain ⟨o, ho, hHolds⟩ := hOperand hk
    exact ⟨o, v, ho, hHolds, hAdmits⟩
  · intro k o hk ho
    obtain ⟨hLt, hGet⟩ := List.getElem?_eq_some_iff.mp hk
    have hLt' : k < forms.length := by rwa [← hForms.length_eq]
    have hHolds := hForms.get hLt hLt'
    rw [List.get_eq_getElem, hGet] at hHolds
    obtain ⟨v, hv⟩ := hHolds.isNumber ho
    refine h.elsewhere k v ?_
    rw [← hv]
    exact List.getElem?_eq_getElem hLt'
  · intro hField
    obtain ⟨v, v', hv, hv', hSum⟩ := h.field hField
    obtain ⟨o, ho, hHolds⟩ := hOperand hv
    obtain ⟨o', ho', hHolds'⟩ := hOperand hv'
    exact ⟨o, o', v, v', ho, ho', hHolds, hHolds', hSum⟩

end Suits
end Opcode
end ArmBackend
