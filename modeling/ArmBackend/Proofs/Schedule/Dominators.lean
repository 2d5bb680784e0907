import ArmBackend.Proofs.Dominance
import ArmBackend.Proofs.Settles
import Mathlib.Algebra.Order.BigOperators.Group.Finset
import Mathlib.Tactic.Common

/-!
# The sweeps find the dominators

A table of immediate dominators is refreshed block by block until a sweep changes nothing. In between
its entries are wrong: the way up from a block passes through every dominator, but through other
blocks too. What is true of the table at every moment is collected in `Midway`. Every refreshed
entry lies on the way up from the entry before it, so the entries only go down and the sweeps come to
an end; and where nothing changes any more, what lies on the way up from a block lies on the way up
from each of its predecessors, and so on every path.

The blocks only have to be numbered so that each of them but the first has a predecessor with a lower
number. Reverse post-order is one such numbering.

## Results

* `intersect_spec`, `nearest_spec` — the nearest block that ways up have in common.
* `Midway.set` — what one refreshed entry preserves.
* `Midway.sweep` — a sweep that changes something makes the entries smaller.
* `settle_spec` — the sweeps end, and the ways up are the dominators.
-/

namespace ArmBackend

namespace Dominators

variable {table : Array (Option Nat)} {a b c d : Nat}

/-! ## Ways up -/

/-- Whether a block has an entry. -/
def Known (table : Array (Option Nat)) (b : Nat) : Prop :=
  ∃ d, entry table b = some d

/-- Block `a` lies on the way up from `b`, or is `b`. -/
inductive Up (table : Array (Option Nat)) : Nat → Nat → Prop
  | refl (b : Nat) : Up table b b
  | step {a b c : Nat} : entry table b = some c → Up table a c → Up table a b

/-- Two ways up, one behind the other. -/
theorem Up.trans (h : Up table a b) (h' : Up table b c) : Up table a c := by
  induction h' with
  | refl => exact h
  | step hEntry _ ih => exact .step hEntry ih

/-- A way up to another block starts with the entry. -/
theorem Up.strict (h : Up table a b) (hNe : a ≠ b) : ∃ c, entry table b = some c ∧ Up table a c := by
  cases h with
  | refl => exact absurd rfl hNe
  | step hEntry h => exact ⟨_, hEntry, h⟩

/-- Only blocks of the table have entries. -/
theorem Known.lt_size (h : Known table b) : b < table.size := by
  obtain ⟨d, hd⟩ := h
  by_contra hNot
  unfold entry at hd
  rw [Array.getElem?_eq_none (Nat.not_lt.mp hNot)] at hd
  cases hd

/-- The ways up go to lower numbers and lead to the first block. -/
structure Rooted (table : Array (Option Nat)) : Prop where
  first : entry table 0 = some 0
  lower : ∀ b d, 0 < b → entry table b = some d → d < b
  filled : ∀ b, Known table b → ∀ c < b, Known table c

namespace Rooted

/-- An entry is no greater than its block. -/
theorem entry_le (h : Rooted table) (hEntry : entry table b = some d) : d ≤ b := by
  by_cases hb : 0 < b
  · exact (h.lower b d hb hEntry).le
  · obtain rfl : b = 0 := by omega
    rw [h.first, Option.some.injEq] at hEntry
    omega

/-- A way up leads to no greater number. -/
theorem up_le (h : Rooted table) (hUp : Up table a b) : a ≤ b := by
  induction hUp with
  | refl => exact Nat.le_refl _
  | step hEntry _ ih => exact ih.trans (h.entry_le hEntry)

/-- The blocks with entries are the first ones. -/
theorem known_of_le (h : Rooted table) (hKnown : Known table b) (hLe : a ≤ b) : Known table a := by
  rcases Nat.lt_or_eq_of_le hLe with hLt | rfl
  · exact h.filled b hKnown a hLt
  · exact hKnown

/-- The larger one of two different blocks goes up, so it passes no block the ways have in common. -/
theorem up_of_entry (h : Rooted table) (hEntry : entry table a = some d) (hLt : b < a) :
    Up table c d ∧ Up table c b ↔ Up table c a ∧ Up table c b := by
  refine and_congr_left fun hb => ⟨.step hEntry, fun ha => ?_⟩
  have hNe : c ≠ a := by
    have := h.up_le hb
    omega
  obtain ⟨e, he, hUp⟩ := ha.strict hNe
  rw [hEntry, Option.some.injEq] at he
  exact he ▸ hUp

end Rooted

/-- What two ways up have in common is the way up from where they meet. -/
theorem intersect_spec (hRooted : Rooted table) {fuel : Nat} (hFuel : a + b < fuel)
    (ha : Known table a) (hb : Known table b) :
    ∃ d, intersect table fuel a b = .ok d ∧ ∀ c, Up table c d ↔ Up table c a ∧ Up table c b := by
  induction fuel generalizing a b with
  | zero => omega
  | succ fuel ih =>
    unfold intersect
    by_cases hEq : a = b
    · subst hEq
      exact ⟨a, if_pos rfl, fun c => (and_self_iff).symm⟩
    · rw [if_neg hEq]
      obtain ⟨x, hx⟩ := ha
      obtain ⟨y, hy⟩ := hb
      by_cases hLt : b < a
      · -- The larger number goes up and gets smaller, which is what the fuel is for.
        have hLower := hRooted.lower a x (by omega) hx
        obtain ⟨d, hd, hMeet⟩ := ih (a := x) (by omega)
          (hRooted.known_of_le ⟨x, hx⟩ hLower.le) ⟨y, hy⟩
        refine ⟨d, ?_, fun c => (hMeet c).trans (hRooted.up_of_entry hx hLt)⟩
        rw [if_pos hLt, above, hx]
        exact hd
      · have hLower := hRooted.lower b y (by omega) hy
        obtain ⟨d, hd, hMeet⟩ := ih (b := y) (by omega) ⟨x, hx⟩
          (hRooted.known_of_le ⟨y, hy⟩ hLower.le)
        refine ⟨d, ?_, fun c => (hMeet c).trans ?_⟩
        · rw [if_neg hLt, above, hy]
          exact hd
        · rw [and_comm, hRooted.up_of_entry hy (by omega), and_comm]

/-- A block is where the ways up from those predecessors meet that have an entry. -/
def Meets (table : Array (Option Nat)) (pred : List Nat) (d : Nat) : Prop :=
  ∀ c, Up table c d ↔ ∀ p ∈ pred, Known table p → Up table c p

/-- What the predecessors up to some point come to: nothing before the first one with an entry, and
from there on where their ways meet. -/
def MeetsSoFar (table : Array (Option Nat)) (pred : List Nat) : Option Nat → Prop
  | none => ∀ p ∈ pred, ¬Known table p
  | some d => (∃ p ∈ pred, Known table p) ∧ Meets table pred d

theorem nearest_spec (hRooted : Rooted table) {pred : List Nat}
    (hSome : ∃ p ∈ pred, Known table p) :
    ∃ d, nearest table pred = .ok (some d) ∧ Meets table pred d := by
  have hLoop : Settles (fun _ => False) (nearest table pred) (MeetsSoFar table pred) := by
    unfold nearest
    refine Settles.foldlM (I := MeetsSoFar table) ?_ ?_
    · intro p hp
      cases hp
    intro front p rest common _ hFront
    cases hEntry : entry table p with
    | none =>
      -- A predecessor that the sweep has not come to is passed over.
      have hNot : ¬Known table p := by
        rintro ⟨d, hd⟩
        rw [hEntry] at hd
        cases hd
      cases common with
      | none => simpa [Settles, MeetsSoFar, or_imp, forall_and] using ⟨hFront, hNot⟩
      | some d =>
        obtain ⟨⟨q, hq, hKnown⟩, hMeet⟩ := hFront
        refine ⟨⟨q, List.mem_append_left _ hq, hKnown⟩, fun c => (hMeet c).trans ?_⟩
        simp [or_imp, forall_and, hNot]
    | some e =>
      have hKnown : Known table p := ⟨e, hEntry⟩
      cases common with
      | none =>
        refine ⟨⟨p, by simp, hKnown⟩, fun c => ⟨fun hUp q hq hKnownq => ?_, fun hAll => ?_⟩⟩
        · rcases List.mem_append.mp hq with hq | hq
          · exact absurd hKnownq (hFront q hq)
          · rw [List.mem_singleton.mp hq]
            exact hUp
        · exact hAll p (by simp) hKnown
      | some d =>
        -- The ways so far meet above `q`, so the place has an entry of its own to go on from.
        obtain ⟨⟨q, hq, hKnownq⟩, hMeet⟩ := hFront
        have hd : Known table d := by
          have hUp := (hMeet d).mp (.refl d) q hq hKnownq
          exact hRooted.known_of_le hKnownq (hRooted.up_le hUp)
        have hFuel : p + d < 2 * table.size := by
          have hLt := hKnown.lt_size
          have hLt' := hd.lt_size
          omega
        obtain ⟨m, hm, hBoth⟩ := intersect_spec hRooted hFuel hKnown hd
        show Settles _ (intersect table (2 * table.size) p d >>= fun x => pure (some x)) _
        rw [hm, ok_bind]
        refine Settles.pure ⟨⟨p, by simp, hKnown⟩, fun c => ?_⟩
        rw [hBoth, hMeet]
        simp only [List.mem_append, List.mem_singleton, or_imp, forall_and, forall_eq]
        exact ⟨fun h => ⟨h.2, fun _ => h.1⟩, fun h => ⟨h.2 hKnown, h.1⟩⟩
  obtain ⟨common, hOk, hCommon⟩ := hLoop.exists_ok
  cases common with
  | none =>
    obtain ⟨p, hp, hKnown⟩ := hSome
    exact absurd hKnown (hCommon p hp)
  | some d => exact ⟨d, hOk, hCommon.2⟩

/-! ## Changing one entry -/

/-- Setting an entry changes that one alone. -/
theorem entry_set (hb : b < table.size) (x : Nat) :
    entry (table.setIfInBounds b (some d)) x = if x = b then some d else entry table x := by
  unfold entry
  rw [Array.getElem?_setIfInBounds]
  by_cases hx : x = b
  · rw [if_pos hx.symm, if_pos (hx ▸ hb), if_pos hx]
    rfl
  · rw [if_neg (Ne.symm hx), if_neg hx]

/-- Setting an entry makes one block known. -/
theorem Known.set (hb : b < table.size) {x : Nat} :
    Known (table.setIfInBounds b (some d)) x ↔ x = b ∨ Known table x := by
  unfold Known
  rw [entry_set hb]
  by_cases hx : x = b <;> simp [hx]

section Set

variable {x : Nat} (hRooted : Rooted table) (hb : b < table.size)
include hRooted hb

/-- The ways up from blocks before the changed one stay as they are. -/
theorem Up.set_below (hx : x < b) : Up (table.setIfInBounds b (some d)) a x ↔ Up table a x := by
  constructor
  · intro h
    induction h with
    | refl => exact .refl _
    | @step x y hEntry _ ih =>
      rw [entry_set hb, if_neg (by omega)] at hEntry
      have := hRooted.entry_le hEntry
      exact .step hEntry (ih (by omega))
  · intro h
    induction h with
    | refl => exact .refl _
    | @step x y hEntry _ ih =>
      have := hRooted.entry_le hEntry
      refine .step ?_ (ih (by omega))
      rw [entry_set hb, if_neg (by omega)]
      exact hEntry

/-- When the new entry lies on the way up from the old one, no way up gets a block it did not have. -/
theorem Up.of_set (hOn : ∀ t, entry table b = some t → Up table d t) (hd : Known table d)
    (hx : Known table x) (h : Up (table.setIfInBounds b (some d)) c x) : Up table c x := by
  induction h with
  | refl => exact .refl _
  | @step x y hEntry _ ih =>
    rw [entry_set hb] at hEntry
    split at hEntry
    · next hEq =>
      subst hEq
      cases hEntry
      -- The new entry was above the old one, so it was above the changed block before.
      obtain ⟨t, ht⟩ := hx
      exact (ih hd).trans (.step ht (hOn t ht))
    · exact .step hEntry (ih (hRooted.known_of_le hx (hRooted.entry_le hEntry)))

omit hRooted in
/-- A block stays on a way up, or it was above the changed block, which has stayed. -/
theorem Up.set (h : Up table c x) : Up (table.setIfInBounds b (some d)) c x ∨
    (Up (table.setIfInBounds b (some d)) b x ∧ Up table b x ∧ Up table c b) := by
  induction h with
  | refl => exact .inl (.refl _)
  | @step x y hEntry hUp ih =>
    by_cases hx : x = b
    · subst hx
      exact .inr ⟨.refl _, .refl _, .step hEntry hUp⟩
    · have hEntry' : entry (table.setIfInBounds b (some d)) x = some y := by
        rw [entry_set hb, if_neg hx]
        exact hEntry
      exact ih.imp (.step hEntry') fun ⟨hNew, hOld, hAbove⟩ =>
        ⟨.step hEntry' hNew, .step hEntry hOld, hAbove⟩

end Set

end Dominators

/-! ## Blocks that are numbered along their edges -/

namespace Schedule

open Dominators

variable {s : Schedule} {table : Array (Option Nat)} {a b c d p x : Nat} {path : List Nat}

/-- Successors and predecessors tell of the same edges. -/
def Consistent (s : Schedule) : Prop :=
  ∀ a b, b ∈ s.successors a ↔ a ∈ s.predecessors b

/-- The edges are consistent, and every block but the first has a predecessor with a lower number. -/
structure Numbered (s : Schedule) : Prop where
  edges : s.Consistent
  earlier : ∀ b, 0 < b → b < s.blocks.size → ∃ p ∈ s.predecessors b, p < b

/-- Every path to `b` goes through `a`. -/
def OnEveryPath (s : Schedule) (a b : Nat) : Prop :=
  ∀ path, s.IsPath path b → a ∈ path

/-- A way along edges to higher numbers. -/
inductive Rise (s : Schedule) : Nat → Nat → Prop
  | refl (b : Nat) : Rise s b b
  | step {a p b : Nat} : p ∈ s.predecessors b → p < b → Rise s a p → Rise s a b

/-- A way along rising edges rises. -/
theorem Rise.le (h : s.Rise a b) : a ≤ b := by
  induction h with
  | refl => exact Nat.le_refl _
  | step _ hLt _ ih => omega

/-- Two rising ways, one behind the other. -/
theorem Rise.trans (h : s.Rise a b) (h' : s.Rise b c) : s.Rise a c := by
  induction h' with
  | refl => exact h
  | step hp hLt _ ih => exact .step hp hLt ih

/-- Both ends of an edge are blocks. -/
theorem Consistent.lt_size (h : s.Consistent) (hp : p ∈ s.predecessors b) :
    p < s.blocks.size ∧ b < s.blocks.size := by
  have hSucc := (h p b).mpr hp
  constructor
  · by_contra hNot
    unfold successors at hSucc
    rw [Array.getElem?_eq_none (Nat.not_lt.mp hNot)] at hSucc
    cases hSucc
  · by_contra hNot
    unfold predecessors at hp
    rw [Array.getElem?_eq_none (Nat.not_lt.mp hNot)] at hp
    cases hp

/-- A block on every path to `b` is on every path to a predecessor of `b`, for such a path goes on to
`b`. -/
theorem OnEveryPath.pred (h : s.OnEveryPath a b) (hEdges : s.Consistent) (hNe : a ≠ b)
    (hp : p ∈ s.predecessors b) : s.OnEveryPath a p := by
  intro path hPath
  have hMem := h _ (hPath.concat ((hEdges p b).mpr hp))
  rcases List.mem_append.mp hMem with hMem | hMem
  · exact hMem
  · exact absurd (List.mem_singleton.mp hMem) hNe

/-- A path to one of two blocks that are on every path to each other comes through the other, and has
come through the first one before. -/
theorem OnEveryPath.antisymm (hab : s.OnEveryPath a b) (hba : s.OnEveryPath b a)
    (hReached : s.Reached b) : a = b := by
  obtain ⟨path, hPath⟩ := hReached
  by_contra hNe
  -- A path that ends elsewhere is shorter than the one that it begins.
  have hShorter : ∀ {x y front whole}, s.IsPath front x → s.IsPath whole y → x ≠ y →
      front <+: whole → front.length < whole.length := by
    intro x y front whole hFront hWhole hxy hPrefix
    refine Nat.lt_of_le_of_ne hPrefix.length_le fun hSame => hxy ?_
    rw [hPrefix.eq_of_length hSame] at hFront
    exact Option.some.inj (hFront.2.2.symm.trans hWhole.2.2)
  induction hLength : path.length using Nat.strong_induction_on generalizing path with
  | _ k ih =>
    obtain ⟨front, hFront, hPrefix⟩ := hPath.upTo (hab path hPath)
    obtain ⟨front', hFront', hPrefix'⟩ := hFront.upTo (hba front hFront)
    have hLt := hShorter hFront hPath hNe hPrefix
    have hLt' := hShorter hFront' hFront (Ne.symm hNe) hPrefix'
    exact ih front'.length (by omega) front' hFront' rfl

/-- A way to higher numbers cannot go through a block with a lower one. -/
theorem OnEveryPath.of_rise (hEdges : s.Consistent) (hRise : s.Rise b x) (hLt : a < b)
    (h : s.OnEveryPath a x) : s.OnEveryPath a b := by
  induction hRise with
  | refl => exact h
  | step hp hLower hRise ih =>
    have := hRise.le
    exact ih (h.pred hEdges (by omega) hp)

/-- The last edge of a path. -/
theorem IsPath.last_edge (h : s.IsPath path b) :
    b = 0 ∧ path = [0] ∨
      ∃ front p, path = front ++ [b] ∧ s.IsPath front p ∧ b ∈ s.successors p := by
  obtain ⟨hChain, hHead, hLast⟩ := h
  obtain ⟨front, rfl⟩ := List.getLast?_eq_some_iff.mp hLast
  -- a path of one block is the entry's; any other ends with an edge
  cases hFront : front.getLast? with
  | none =>
    rw [List.getLast?_eq_none_iff] at hFront
    subst hFront
    simp only [List.nil_append, List.head?_cons, Option.some.injEq] at hHead
    exact .inl ⟨hHead, by rw [hHead, List.nil_append]⟩
  | some p =>
    refine .inr ⟨front, p, rfl, ⟨hChain.left_of_append, ?_, hFront⟩, ?_⟩
    · rw [List.head?_append] at hHead
      cases hFirst : front.head? with
      | none =>
        rw [List.head?_eq_none_iff.mp hFirst] at hFront
        cases hFront
      | some x =>
        rw [hFirst] at hHead
        exact hHead
    · exact (List.isChain_append.mp hChain).2.2 p hFront b (by simp)

/-- Every block can be reached. -/
theorem Numbered.reached (h : s.Numbered) (hb : b < s.blocks.size) : s.Reached b := by
  induction b using Nat.strong_induction_on with
  | _ b ih =>
    by_cases hZero : b = 0
    · subst hZero
      exact ⟨[0], List.isChain_singleton 0, rfl, rfl⟩
    · obtain ⟨p, hp, hLt⟩ := h.earlier b (by omega) hb
      obtain ⟨path, hPath⟩ := ih p hLt (by omega)
      exact ⟨path ++ [b], hPath.concat ((h.edges p b).mpr hp)⟩

/-! ## What holds of the table at every moment -/

/-- The table when a sweep has come to block `b`. -/
structure Midway (s : Schedule) (b : Nat) (table : Array (Option Nat)) : Prop extends
    Rooted table where
  size : table.size = s.blocks.size
  known : ∀ x < b, Known table x
  /-- There is a way to higher numbers from the entry of a block to the block. -/
  rise : ∀ x t, entry table x = some t → s.Rise t x
  /-- The dominators of a block lie on the way up from it. -/
  above : ∀ x, Known table x → ∀ a, s.OnEveryPath a x → Up table a x
  /-- The ways up from the predecessors meet no later than at the entry. -/
  bound : ∀ x t, 0 < x → entry table x = some t →
    ∀ c, (∀ p ∈ s.predecessors x, Known table p → Up table c p) → c ≤ t
  /-- The entries of this sweep lie on the ways up from all predecessors with a lower number. -/
  fresh : ∀ x t, 0 < x → x < b → entry table x = some t →
    ∀ p ∈ s.predecessors x, p < x → Up table t p

namespace Midway

/-- A way up the table follows edges backwards. -/
theorem rise_of_up (h : Midway s b table) (hUp : Up table a x) : s.Rise a x := by
  induction hUp with
  | refl => exact .refl _
  | step hEntry _ ih => exact ih.trans (h.rise _ _ hEntry)

/-- Among the blocks of this sweep the way up from the end of a rise meets the way up from its
beginning as soon as it comes to numbers that are low enough. -/
theorem up_of_rise (h : Midway s b table) (hRise : s.Rise a x) (hx : x < b) (hUp : Up table c x)
    (hLe : c ≤ a) : Up table c a := by
  induction hRise with
  | refl => exact hUp
  | @step p x hp hLower hRise ih =>
    have := hRise.le
    -- The entry of the end is above each lower predecessor, and the rise comes from one of them.
    obtain ⟨t, ht, hUp⟩ := hUp.strict (by omega)
    exact ih (by omega) (hUp.trans (h.fresh x t (by omega) hx ht p hp hLower))

/-- Where the ways up meet is on the way up from a predecessor with a lower number. -/
theorem meets_lt (h : Midway s b table) (hs : s.Numbered) (h0 : 0 < b) (hb : b < s.blocks.size)
    (hMeets : Meets table (s.predecessors b) d) :
    ∃ p ∈ s.predecessors b, p < b ∧ Known table p ∧ Up table d p := by
  obtain ⟨p, hp, hLt⟩ := hs.earlier b h0 hb
  have hKnown := h.known p hLt
  exact ⟨p, hp, hLt, hKnown, (hMeets d).mp (.refl d) p hp hKnown⟩

/-- A refreshed entry lies on the way up from the one before it. -/
theorem up_entry (h : Midway s b table) (h0 : 0 < b)
    (hMeets : Meets table (s.predecessors b) d) {t : Nat} (ht : entry table b = some t) :
    Up table d t := by
  have hLe : d ≤ t := h.bound b t h0 ht d ((hMeets d).mp (.refl d))
  cases h.rise b t ht with
  | refl => exact absurd (h.lower b b h0 ht) (Nat.lt_irrefl b)
  | @step p _ hp hLt hRise =>
    exact h.up_of_rise hRise hLt ((hMeets d).mp (.refl d) p hp (h.known p hLt)) hLe

section

variable (h : Midway s b table) (hs : s.Numbered) (h0 : 0 < b) (hb : b < s.blocks.size)
  (hMeets : Meets table (s.predecessors b) d)

include h hs h0 hb hMeets

/-- The predecessors meet at a lower number than that of the block. -/
theorem lt_of_meets : d < b := by
  obtain ⟨q, -, hqb, -, hdq⟩ := h.meets_lt hs h0 hb hMeets
  exact Nat.lt_of_le_of_lt (h.up_le hdq) hqb

/-- A dominator of the block dominates its predecessors, so it is above where they meet. -/
theorem above_refreshed (ha : s.OnEveryPath a b) : Up (table.setIfInBounds b (some d)) a b := by
  have hSize : b < table.size := h.size ▸ hb
  have hd : d < b := h.lt_of_meets hs h0 hb hMeets
  by_cases hNe : a = b
  · exact hNe ▸ .refl _
  · have hUp : Up table a d := (hMeets a).mpr fun p hp hKnownp =>
      h.above p hKnownp a (ha.pred hs.edges hNe hp)
    refine .step ?_ ((Up.set_below h.toRooted hSize hd).mpr hUp)
    rw [entry_set hSize, if_pos rfl]

/-- Above every block its dominators stay. -/
theorem above_set {x : Nat} (hx : Known (table.setIfInBounds b (some d)) x)
    (ha : s.OnEveryPath a x) : Up (table.setIfInBounds b (some d)) a x := by
  have hSize : b < table.size := h.size ▸ hb
  rcases (Known.set hSize).mp hx with rfl | hx
  · exact h.above_refreshed hs h0 hb hMeets ha
  · rcases (h.above x hx a ha).set hSize with hUp | ⟨hNew, hUp, hab⟩
    · exact hUp
    · -- The changed block lies between: there is a rise from it that avoids the dominator.
      by_cases hEq : a = b
      · exact hEq ▸ hNew
      · have hLt : a < b := by
          have := h.up_le hab
          omega
        have hOn := ha.of_rise hs.edges (h.rise_of_up hUp) hLt
        exact (h.above_refreshed hs h0 hb hMeets hOn).trans hNew

/-- Refreshing the entry of a block preserves everything. -/
theorem set : Midway s (b + 1) (table.setIfInBounds b (some d)) := by
  have hSize : b < table.size := h.size ▸ hb
  have hOn := fun t => h.up_entry h0 hMeets (t := t)
  have hd : d < b := h.lt_of_meets hs h0 hb hMeets
  have hKnown : Known table d := h.known d hd
  have hBelow : ∀ {a x}, x < b → (Up (table.setIfInBounds b (some d)) a x ↔ Up table a x) :=
    fun hx => Up.set_below h.toRooted hSize hx
  have hOld : ∀ {c x}, Known table x → Up (table.setIfInBounds b (some d)) c x → Up table c x :=
    fun hx hUp => hUp.of_set h.toRooted hSize hOn hKnown hx
  refine { first := ?first, lower := ?lower, filled := ?filled, size := ?size, known := ?known,
           rise := ?rise, above := ?above, bound := ?bound, fresh := ?fresh }
  case first =>
    rw [entry_set hSize, if_neg (by omega)]
    exact h.first
  case lower =>
    intro x t hx ht
    rw [entry_set hSize] at ht
    split at ht
    · cases ht
      omega
    · exact h.lower x t hx ht
  case filled =>
    intro x hx y hy
    rw [Known.set hSize] at hx ⊢
    rcases hx with rfl | hx
    · exact .inr (h.known y hy)
    · exact .inr (h.filled x hx y hy)
  case size =>
    rw [Array.size_setIfInBounds]
    exact h.size
  case known =>
    intro x hx
    rw [Known.set hSize]
    by_cases hEq : x = b
    · exact .inl hEq
    · exact .inr (h.known x (by omega))
  case rise =>
    -- From the new entry the way rises to the predecessor it was found for, and on to the block.
    intro x t ht
    rw [entry_set hSize] at ht
    split at ht
    · next hEq =>
      cases ht
      obtain ⟨q, hq, hqb, -, hdq⟩ := h.meets_lt hs h0 hb hMeets
      exact hEq ▸ .step hq hqb (h.rise_of_up hdq)
    · exact h.rise x t ht
  case above => exact fun x hx a ha => h.above_set hs h0 hb hMeets hx ha
  case bound =>
    -- What is above a predecessor now was above it before, since the entries only go down.
    intro x t hx ht c hc
    rw [entry_set hSize] at ht
    split at ht
    · next hEq =>
      subst hEq
      cases ht
      refine h.up_le ((hMeets c).mpr fun p hp hKnownp => hOld hKnownp ?_)
      exact hc p hp ((Known.set hSize).mpr (.inr hKnownp))
    · refine h.bound x t hx ht c fun p hp hKnownp => hOld hKnownp ?_
      exact hc p hp ((Known.set hSize).mpr (.inr hKnownp))
  case fresh =>
    -- The predecessors in question have lower numbers, and their ways up did not change.
    intro x t hx hxb ht p hp hLt
    rw [entry_set hSize] at ht
    split at ht
    · next hEq =>
      subst hEq
      cases ht
      exact (hBelow hLt).mpr ((hMeets d).mp (.refl d) p hp (h.known p hLt))
    · exact (hBelow (by omega)).mpr (h.fresh x t hx (by omega) ht p hp hLt)

end

/-- At the end of a sweep the next one may begin. -/
theorem restart (h : Midway s b table) (hb : 1 ≤ b) : Midway s 1 table :=
  { h with
    known := fun x hx => h.known x (by omega)
    fresh := fun x t hx hx' => by omega }

/-- The ways up from the predecessors that have entries meet. -/
theorem nearest (h : Midway s b table) (hs : s.Numbered) (h0 : 0 < b) (hb : b < s.blocks.size) :
    ∃ d, Dominators.nearest table (s.predecessors b) = .ok (some d) ∧
      Meets table (s.predecessors b) d := by
  obtain ⟨p, hp, hLt⟩ := hs.earlier b h0 hb
  exact nearest_spec h.toRooted ⟨p, hp, h.known p hLt⟩

end Midway

/-! ## Sweeps -/

/-- The sum of the entries. A block without one counts as more than any. -/
def weight (s : Schedule) (table : Array (Option Nat)) : Nat :=
  ∑ x ∈ Finset.range s.blocks.size, (entry table x).getD s.blocks.size

/-- The entry of a block is where the ways up from its predecessors meet. -/
def IsSettledAt (s : Schedule) (table : Array (Option Nat)) (b : Nat) : Prop :=
  ∃ d, entry table b = some d ∧ Meets table (s.predecessors b) d

/-- What a sweep has done to the table when it comes to a block. -/
structure Swept (s : Schedule) (old : Array (Option Nat)) (done : List Nat)
    (state : Array (Option Nat) × Bool) : Prop where
  midway : Midway s (done.length + 1) state.1
  same : state.2 = false → state.1 = old ∧ ∀ b ∈ done, s.IsSettledAt old b
  less : state.2 = true → s.weight state.1 < s.weight old

/-- An entry that changes becomes smaller. -/
theorem Midway.weight_set (h : Midway s b table) (hs : s.Numbered) (h0 : 0 < b)
    (hb : b < s.blocks.size) (hMeets : Meets table (s.predecessors b) d)
    (hNe : some d ≠ entry table b) :
    s.weight (table.setIfInBounds b (some d)) < s.weight table := by
  have hSize : b < table.size := h.size ▸ hb
  -- a changed entry moves towards the entry block, which bounds the number of rounds
  have hLess : d < (entry table b).getD s.blocks.size := by
    cases hEntry : entry table b with
    | none =>
      obtain ⟨p, -, hLt, -, hUp⟩ := h.meets_lt hs h0 hb hMeets
      have := h.up_le hUp
      rw [Option.getD_none]
      omega
    | some t =>
      have := h.bound b t h0 hEntry d ((hMeets d).mp (.refl d))
      rw [hEntry, ne_eq, Option.some.injEq] at hNe
      rw [Option.getD_some]
      omega
  refine Finset.sum_lt_sum (fun x _ => ?_) ⟨b, Finset.mem_range.mpr hb, ?_⟩
  · rw [entry_set hSize]
    split
    · next hEq => exact hEq ▸ hLess.le
    · exact Nat.le_refl _
  · rw [entry_set hSize, if_pos rfl]
    exact hLess

/-- What one step of a sweep does. -/
theorem Swept.refresh {old : Array (Option Nat)} {done : List Nat}
    {state : Array (Option Nat) × Bool} (h : Swept s old done state) (hs : s.Numbered)
    (hb : done.length + 1 < s.blocks.size) :
    ∃ state', Dominators.refresh s.predecessors state (done.length + 1) = .ok state' ∧
      Swept s old (done ++ [done.length + 1]) state' := by
  obtain ⟨table, changed⟩ := state
  obtain ⟨d, hd, hMeets⟩ := h.midway.nearest hs (by omega) hb
  have hNext : Midway s (done.length + 1 + 1) (table.setIfInBounds (done.length + 1) (some d)) :=
    h.midway.set hs (by omega) hb hMeets
  unfold Dominators.refresh
  dsimp only at hd hMeets ⊢
  rw [hd, ok_bind]
  refine ⟨_, rfl, ?_⟩
  by_cases hEq : some d = entry table (done.length + 1)
  · -- Writing the entry that is there already changes nothing.
    have hSame : table.setIfInBounds (done.length + 1) (some d) = table := by
      have hSize : done.length + 1 < table.size := h.midway.size ▸ hb
      refine Array.ext_getElem? fun x => ?_
      rw [Array.getElem?_setIfInBounds]
      split
      · next hx =>
        subst hx
        unfold entry at hEq
        rw [Array.getElem?_eq_getElem hSize] at hEq ⊢
        exact congrArg some hEq
      · rfl
    rw [hSame] at hNext
    rw [if_pos hEq]
    refine ⟨by simpa using hNext, fun hNot => ⟨(h.same hNot).1, fun x hx => ?_⟩, h.less⟩
    rcases List.mem_append.mp hx with hx | hx
    · exact (h.same hNot).2 x hx
    · obtain rfl := List.mem_singleton.mp hx
      rw [← (h.same hNot).1]
      exact ⟨d, hEq.symm, hMeets⟩
  · rw [if_neg hEq]
    have hLess := h.midway.weight_set hs (by omega) hb hMeets hEq
    refine ⟨by simpa using hNext, by simp, fun _ => ?_⟩
    -- The weight is compared with that of the table the sweep began with.
    cases hChanged : changed with
    | false =>
      have hOld : table = old := (h.same hChanged).1
      exact hOld ▸ hLess
    | true => exact hLess.trans (h.less hChanged)

theorem Midway.sweep (h : Midway s 1 table) (hs : s.Numbered) :
    ∃ state, Dominators.sweep s.predecessors table = .ok state ∧
      Swept s table (List.range' 1 (s.blocks.size - 1)) state := by
  refine Settles.exists_ok ?_
  unfold Dominators.sweep
  rw [h.size]
  refine Settles.foldlM ⟨h, by simp, by simp⟩ ?_
  intro front b rest state hSplit hFront
  -- The block that the sweep comes to is numbered by the blocks that are done.
  have hLength : front.length < s.blocks.size - 1 := by
    have := congrArg List.length hSplit
    simp only [List.length_range', List.length_append, List.length_cons] at this
    omega
  obtain rfl : b = front.length + 1 := by
    have hAt : (List.range' 1 (s.blocks.size - 1))[front.length]? = some b := by
      rw [hSplit]
      simp
    rw [List.getElem?_range' hLength, Option.some.injEq] at hAt
    omega
  obtain ⟨state', hOk, hSwept⟩ := hFront.refresh hs (by omega)
  exact Settles.of_eq_ok hOk hSwept

/-- The table when the sweeps have come to an end. -/
structure AtRest (s : Schedule) (table : Array (Option Nat)) : Prop extends Rooted table where
  known : ∀ b < s.blocks.size, Known table b
  above : ∀ b < s.blocks.size, ∀ a, s.OnEveryPath a b → Up table a b
  meets : ∀ b, 0 < b → b < s.blocks.size → s.IsSettledAt table b

/-- The sweeps come to an end. -/
theorem Midway.settle (hs : s.Numbered) (h0 : 0 < s.blocks.size) {fuel : Nat}
    (h : Midway s 1 table) (hFuel : s.weight table < fuel) :
    ∃ final, Dominators.settle s.predecessors fuel table = .ok final ∧ AtRest s final := by
  induction fuel generalizing table with
  | zero => omega
  | succ fuel ih =>
    obtain ⟨⟨next, changed⟩, hSweep, hSwept⟩ := h.sweep hs
    unfold Dominators.settle
    rw [hSweep, ok_bind]
    have hNext : Midway s s.blocks.size next := by
      have := hSwept.midway
      rw [List.length_range', Nat.sub_add_cancel h0] at this
      exact this
    cases changed with
    | true =>
      -- The weight has gone down, so the fuel that is left is enough for it.
      have := hSwept.less rfl
      exact ih (hNext.restart h0) (by dsimp only at this; omega)
    | false =>
      obtain ⟨rfl, hMeets⟩ := hSwept.same rfl
      refine ⟨_, rfl, { hNext with above := ?_, meets := ?_ }⟩
      · intro b hb
        exact hNext.above b (hNext.known b hb)
      · intro b hPos hb
        exact hMeets b (List.mem_range'_1.mpr (by omega))

/-- At first only the first block has an entry, itself. -/
theorem entry_initial (h0 : 0 < s.blocks.size) (x : Nat) :
    entry (initial s.blocks.size) x = if x = 0 then some 0 else none := by
  unfold initial
  rw [entry_set (by simpa using h0)]
  split
  · rfl
  · unfold entry
    rw [Array.getElem?_replicate]
    split <;> rfl

/-- Before the first sweep only the first block has an entry. -/
theorem midway_initial (h0 : 0 < s.blocks.size) : Midway s 1 (initial s.blocks.size) := by
  have hOnly : ∀ {x t}, entry (initial s.blocks.size) x = some t → x = 0 ∧ t = 0 := by
    intro x t ht
    rw [entry_initial h0] at ht
    split at ht
    · next hx => exact ⟨hx, (Option.some.inj ht).symm⟩
    · cases ht
  have hFirst : entry (initial s.blocks.size) 0 = some 0 := by
    rw [entry_initial h0, if_pos rfl]
  refine { first := hFirst, lower := ?lower, filled := ?filled, size := ?size, known := ?known,
           rise := ?rise, above := ?above, bound := ?bound, fresh := ?fresh }
  case lower =>
    intro x t hx ht
    have := hOnly ht
    omega
  case filled =>
    rintro x ⟨t, ht⟩ y hy
    have := hOnly ht
    omega
  case size =>
    unfold initial
    rw [Array.size_setIfInBounds, Array.size_replicate]
  case known =>
    intro x hx
    obtain rfl : x = 0 := by omega
    exact ⟨0, hFirst⟩
  case rise =>
    intro x t ht
    obtain ⟨rfl, rfl⟩ := hOnly ht
    exact .refl 0
  case above =>
    -- The path of the first block alone has no room for another dominator.
    rintro x ⟨t, ht⟩ a ha
    obtain ⟨rfl, -⟩ := hOnly ht
    have hMem := ha [0] ⟨List.isChain_singleton 0, rfl, rfl⟩
    rw [List.mem_singleton.mp hMem]
    exact .refl 0
  case bound =>
    intro x t hx ht
    have := hOnly ht
    omega
  case fresh =>
    intro x t hx ht
    omega

/-- The sum of the entries is bounded at first. -/
theorem weight_initial_le : s.weight (initial s.blocks.size) ≤ s.blocks.size * s.blocks.size := by
  unfold weight
  by_cases h0 : 0 < s.blocks.size
  · calc ∑ x ∈ Finset.range s.blocks.size, (entry (initial s.blocks.size) x).getD s.blocks.size
        ≤ ∑ _x ∈ Finset.range s.blocks.size, s.blocks.size := by
          refine Finset.sum_le_sum fun x _ => ?_
          rw [entry_initial h0]
          split
          · exact h0.le
          · exact Nat.le_refl _
      _ = s.blocks.size * s.blocks.size := by
          rw [Finset.sum_const, Finset.card_range, Nat.nsmul_eq_mul]
  · have : s.blocks.size = 0 := by omega
    simp [this]

/-- Where the sweeps have come to an end, what lies on the way up from a block lies on every path to
it: so it does for the predecessor that the path comes from. -/
theorem AtRest.onEveryPath (h : AtRest s table) (hs : s.Numbered) (hb : b < s.blocks.size)
    (hUp : Up table a b) : s.OnEveryPath a b := by
  -- The induction takes the last edge off the path, so the block changes along with it.
  intro path
  induction hLength : path.length generalizing path b with
  | zero =>
    rintro ⟨-, hHead, -⟩
    rw [List.length_eq_zero_iff.mp hLength] at hHead
    cases hHead
  | succ length ih =>
    intro hPath
    rcases hPath.last_edge with ⟨rfl, rfl⟩ | ⟨front, p, rfl, hFront, hEdge⟩
    · have := h.up_le hUp
      simp only [List.mem_singleton]
      omega
    · by_cases hEq : a = b
      · exact List.mem_append_right _ (List.mem_singleton.mpr hEq)
      · refine List.mem_append_left _ ?_
        have hp := (hs.edges p b).mp hEdge
        have hpSize := (hs.edges.lt_size hp).1
        have hLe := h.up_le hUp
        obtain ⟨d, hd, hMeets⟩ := h.meets b (by omega) hb
        obtain ⟨e, he, hUp⟩ := hUp.strict hEq
        rw [hd, Option.some.injEq] at he
        have hUpp : Up table a p := (hMeets a).mp (he ▸ hUp) p hp (h.known p hpSize)
        exact ih hpSize hUpp front (by simpa using hLength) hFront

/-- When the sweeps have ended, the ways up are the dominators by paths. -/
theorem AtRest.up_iff (h : AtRest s table) (hs : s.Numbered) (hb : b < s.blocks.size) :
    Up table a b ↔ s.OnEveryPath a b :=
  ⟨h.onEveryPath hs hb, h.above b hb a⟩

/-- The sweeps from the table of the first block come to an end, and the ways up are the
dominators. -/
theorem settle_spec (hs : s.Numbered) (h0 : 0 < s.blocks.size) :
    ∃ table, Dominators.settle s.predecessors (s.blocks.size * s.blocks.size + 1)
        (initial s.blocks.size) = .ok table ∧ Rooted table ∧
      ∀ b < s.blocks.size, Known table b ∧ ∀ a, Up table a b ↔ s.OnEveryPath a b := by
  obtain ⟨table, hOk, hSettled⟩ := (midway_initial h0).settle hs h0
    (Nat.lt_succ_of_le weight_initial_le)
  exact ⟨table, hOk, hSettled.toRooted,
    fun b hb => ⟨hSettled.known b hb, fun a => hSettled.up_iff hs hb⟩⟩

end Schedule
end ArmBackend
