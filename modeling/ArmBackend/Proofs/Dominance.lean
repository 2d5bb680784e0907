import ArmBackend.Schedule.Order
import Mathlib.Data.List.Chain

/-!
# Dominance by paths

A path goes from the first block along successor edges. Block `a` dominates `b` when every path
to `b` goes through `a`; a block that no path leads to is dominated by itself alone. Nothing here
looks at the dominators that a schedule stores. This is the meaning that placement and selection are
measured against.

## Results

* `Dominates.refl`, `Dominates.trans` — dominance is a preorder.
* `Dominates.le` — where every edge goes forward, a dominator does not come after the block.
* `Dominates.antisymm` — so two blocks that dominate each other are the same.
-/

namespace ArmBackend.Schedule

variable {s : Schedule}

/-- A way from the first block to `b` along successor edges. -/
def IsPath (s : Schedule) (path : List Nat) (b : Nat) : Prop :=
  path.IsChain (fun x y => y ∈ s.successors x) ∧ path.head? = some 0 ∧ path.getLast? = some b

/-- Whether some path leads to a block. -/
def Reached (s : Schedule) (b : Nat) : Prop :=
  ∃ path, s.IsPath path b

/-- Block `a` is `b`, or `b` can be reached and every path to it goes through `a`. -/
def Dominates (s : Schedule) (a b : Nat) : Prop :=
  a = b ∨ (s.Reached b ∧ ∀ path, s.IsPath path b → a ∈ path)

/-- A dominator that is another block. -/
def StrictlyDominates (s : Schedule) (a b : Nat) : Prop :=
  s.Dominates a b ∧ a ≠ b

/-- The nearest dominator that is another block: the other ones dominate it. -/
def ImmediatelyDominates (s : Schedule) (a b : Nat) : Prop :=
  s.StrictlyDominates a b ∧ ∀ c, s.StrictlyDominates c b → s.Dominates c a

/-- Every edge goes to a block with a higher number. -/
def Forward (s : Schedule) : Prop :=
  ∀ b, (∀ t ∈ s.successors b, b < t) ∧ ∀ p ∈ s.predecessors b, p < b

theorem Dominates.refl (b : Nat) : s.Dominates b b :=
  .inl rfl

/-- A path goes on along an edge. -/
theorem IsPath.concat {path : List Nat} {a b : Nat} (hp : s.IsPath path a)
    (hb : b ∈ s.successors a) : s.IsPath (path ++ [b]) b := by
  obtain ⟨hChain, hHead, hLast⟩ := hp
  obtain ⟨front, rfl⟩ := List.getLast?_eq_some_iff.mp hLast
  refine ⟨?_, ?_, by simp⟩
  · -- only the step over the seam is new: from `a`, the last of the path
    refine hChain.append (List.isChain_singleton b) ?_
    intro x hx y hy
    rw [hLast] at hx
    cases hx
    cases hy
    exact hb
  · rw [List.head?_append, hHead]
    rfl

/-- The part of a path up to one of its blocks is a path to that block. -/
theorem IsPath.upTo {path : List Nat} {a b : Nat} (hp : s.IsPath path b) (ha : a ∈ path) :
    ∃ front, s.IsPath front a ∧ front <+: path := by
  obtain ⟨hChain, hHead, -⟩ := hp
  -- the path is cut behind the first place of `a` that is at hand
  obtain ⟨l, r, rfl⟩ := List.append_of_mem ha
  have hSplit : l ++ a :: r = (l ++ [a]) ++ r := by simp
  refine ⟨l ++ [a], ⟨?_, ?_, by simp⟩, ?_⟩
  · rw [hSplit] at hChain
    exact hChain.left_of_append
  · cases l with
    | nil => simpa using hHead
    | cons x l => simpa using hHead
  · rw [hSplit]
    exact List.prefix_append _ _

theorem Dominates.trans {a b c : Nat} (hab : s.Dominates a b) (hbc : s.Dominates b c) :
    s.Dominates a c := by
  rcases hbc with rfl | ⟨hReached, hc⟩
  · exact hab
  · refine .inr ⟨hReached, ?_⟩
    intro path hp
    rcases hab with rfl | ⟨-, hb⟩
    · exact hc path hp
    · obtain ⟨front, hFront, hPrefix⟩ := hp.upTo (hc path hp)
      exact hPrefix.subset (hb front hFront)

/-- On a path of forward edges no block comes after the last one. -/
theorem IsPath.le_last {path : List Nat} {a b : Nat} (hf : s.Forward) (hp : s.IsPath path b)
    (ha : a ∈ path) : a ≤ b := by
  obtain ⟨hChain, -, hLast⟩ := hp
  have hSorted : path.IsChain (· < ·) := hChain.imp fun x y h => (hf x).1 y h
  have hPair := List.isChain_iff_pairwise.mp hSorted
  obtain ⟨front, rfl⟩ := List.getLast?_eq_some_iff.mp hLast
  rcases List.mem_append.mp ha with h | h
  · exact Nat.le_of_lt ((List.pairwise_append.mp hPair).2.2 a h b (List.mem_singleton_self b))
  · exact Nat.le_of_eq (List.mem_singleton.mp h)

theorem Dominates.le {a b : Nat} (hf : s.Forward) (h : s.Dominates a b) : a ≤ b := by
  rcases h with rfl | ⟨⟨path, hp⟩, h⟩
  · exact Nat.le_refl a
  · exact hp.le_last hf (h path hp)

theorem Dominates.antisymm {a b : Nat} (hf : s.Forward) (hab : s.Dominates a b)
    (hba : s.Dominates b a) : a = b :=
  Nat.le_antisymm (hab.le hf) (hba.le hf)

end ArmBackend.Schedule
