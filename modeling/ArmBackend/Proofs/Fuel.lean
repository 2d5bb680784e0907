import ArmBackend.Graph.Basic
import Mathlib.Data.Finset.Card
import Mathlib.Data.Fintype.Card

/-!
# Walks with fuel

Several walks go from node to node, one next node at a time, and carry fuel so that a cycle ends
them. The steps of a walk that stops are all different, so as much fuel as there are nodes, and one
more, is enough; and a walk on a cycle runs out of any fuel. Either way more fuel changes nothing.

## Results

* `StopsIn.le_card` — a walk that stops takes each node once.
* `fuel_irrelevant` — above the number of nodes, the answer does not depend on the fuel.
-/

namespace ArmBackend

variable {α β κ : Type} {next : α → Option α} {a b : α} {m n : Nat}

/-- The walk along `next` from a place stops after `n` steps. -/
inductive StopsIn (next : α → Option α) : Nat → α → Prop
  | here {a : α} (hNext : next a = none) : StopsIn next 0 a
  | step {a b : α} {n : Nat} (hNext : next a = some b) (hRest : StopsIn next n b) :
      StopsIn next (n + 1) a

namespace StopsIn

theorem unique (h : StopsIn next m a) (h' : StopsIn next n a) : m = n := by
  -- one chain: where it stops it has no next, and else one next
  induction h generalizing n with
  | here hNext =>
    cases h' with
    | here => rfl
    | step hNext' => cases hNext.symm.trans hNext'
  | step hNext _ ih =>
    cases h' with
    | here hNext' => cases hNext.symm.trans hNext'
    | step hNext' hRest' =>
      cases hNext.symm.trans hNext'
      rw [ih hRest']

/-- Every smaller number of steps is that of some place on the way. -/
theorem exists_of_lt (h : StopsIn next n a) {i : Nat} (hi : i < n) :
    ∃ x y, next x = some y ∧ StopsIn next i y := by
  induction h with
  | here => omega
  | @step a b n hNext hRest ih =>
    by_cases hLast : i = n
    · exact ⟨a, b, hNext, hLast ▸ hRest⟩
    · exact ih (by omega)

/-- A walk that stops takes each key once: where a key comes back, the walk goes on as before. -/
theorem le_card [DecidableEq κ] (key : α → κ) (keys : Finset κ)
    (hMem : ∀ {a b}, next a = some b → key a ∈ keys)
    (hKey : ∀ {a a' b b'}, next a = some b → next a' = some b' → key a = key a' → b = b')
    (h : StopsIn next n a) : n ≤ keys.card := by
  have hAll : ∀ i : Fin n, ∃ x y, next x = some y ∧ StopsIn next i y := fun i =>
    h.exists_of_lt i.isLt
  choose x y hNext hStops using hAll
  -- two steps with one key have one target, and targets stop after different numbers of steps
  have hInjective : Function.Injective fun i => key (x i) := by
    intro i j hSame
    have hTarget : y i = y j := hKey (hNext i) (hNext j) hSame
    exact Fin.ext ((hStops i).unique (hTarget ▸ hStops j))
  calc n = (Finset.univ.image fun i => key (x i)).card := by
        rw [Finset.card_image_of_injective _ hInjective, Finset.card_univ, Fintype.card_fin]
    _ ≤ keys.card := by
        refine Finset.card_le_card ?_
        intro k hk
        obtain ⟨i, -, rfl⟩ := Finset.mem_image.mp hk
        exact hMem (hNext i)

end StopsIn

/-- A run with fuel that follows a walk: without fuel it gives `bottom`, where the walk stops the
fuel does not matter, and where it goes on the answer is made from that of the rest. -/
structure Follows (next : α → Option α) (run : Nat → α → β) (bottom : β) : Prop where
  zero : ∀ a, run 0 a = bottom
  stop : ∀ {a}, next a = none → ∀ f f', run (f + 1) a = run (f' + 1) a
  step : ∀ {a b}, next a = some b → ∃ t : β → β, t bottom = bottom ∧
    ∀ f, run (f + 1) a = t (run f b)

namespace Follows

variable {run : Nat → α → β} {bottom : β}

/-- More steps than the walk takes are enough. -/
theorem eq_of_stopsIn (h : Follows next run bottom) (hStops : StopsIn next n a) {f f' : Nat}
    (hf : n < f) (hf' : n < f') : run f a = run f' a := by
  -- as long as the chain does not outrun it, the fuel is not seen
  induction hStops generalizing f f' with
  | here hNext =>
    obtain ⟨i, rfl⟩ := Nat.exists_eq_succ_of_ne_zero (by omega : f ≠ 0)
    obtain ⟨j, rfl⟩ := Nat.exists_eq_succ_of_ne_zero (by omega : f' ≠ 0)
    exact h.stop hNext i j
  | step hNext _ ih =>
    obtain ⟨i, rfl⟩ := Nat.exists_eq_succ_of_ne_zero (by omega : f ≠ 0)
    obtain ⟨j, rfl⟩ := Nat.exists_eq_succ_of_ne_zero (by omega : f' ≠ 0)
    obtain ⟨t, -, hStep⟩ := h.step hNext
    rw [hStep, hStep, @ih i j (by omega) (by omega)]

/-- A walk that does not stop runs out of any fuel. -/
theorem eq_bottom (h : Follows next run bottom) (hNever : ∀ n, ¬StopsIn next n a) (f : Nat) :
    run f a = bottom := by
  induction f generalizing a with
  | zero => exact h.zero a
  | succ f ih =>
    cases hNext : next a with
    | none => exact absurd (.here hNext) (hNever 0)
    | some b =>
      obtain ⟨t, hBottom, hStep⟩ := h.step hNext
      rw [hStep, ih fun n hb => hNever (n + 1) (.step hNext hb), hBottom]

/-- Above the number of keys, the answer does not depend on the fuel. -/
theorem fuel_irrelevant [DecidableEq κ] (h : Follows next run bottom) (key : α → κ)
    (keys : Finset κ) (hMem : ∀ {a b}, next a = some b → key a ∈ keys)
    (hKey : ∀ {a a' b b'}, next a = some b → next a' = some b' → key a = key a' → b = b')
    {f f' : Nat} (hf : keys.card < f) (hf' : keys.card < f') (a : α) : run f a = run f' a := by
  by_cases hStops : ∃ n, StopsIn next n a
  · obtain ⟨n, hn⟩ := hStops
    have hLe := hn.le_card key keys hMem hKey
    exact h.eq_of_stopsIn hn (by omega) (by omega)
  · rw [h.eq_bottom (fun n hn => hStops ⟨n, hn⟩), h.eq_bottom fun n hn => hStops ⟨n, hn⟩]

end Follows

/-! ## Walks over a graph -/

namespace Graph

variable {g : Graph}

/-- The numbers of the nodes. -/
def ids (g : Graph) : Finset NodeId :=
  (Finset.range g.size).image fun k : Nat => (k : NodeId)

theorem card_ids (g : Graph) : g.ids.card = g.size := by
  unfold ids
  rw [Finset.card_image_of_injective _ fun _ _ => Int.ofNat_inj.mp, Finset.card_range]

theorem mem_ids {id : NodeId} {n : Node} (hn : g.node? id = some n) : id ∈ g.ids := by
  unfold node? at hn
  split at hn
  · cases hn
  · next hNonneg =>
    refine Finset.mem_image.mpr ⟨id.toNat, ?_, Int.toNat_of_nonneg (Int.not_lt.mp hNonneg)⟩
    exact Finset.mem_range.mpr (Array.getElem?_eq_some_iff.mp hn).1

end Graph
end ArmBackend
