import ArmBackend.Proofs.Schedule.Ordered
import Mathlib.Logic.Relation

/-!
# Edges that go back

In reverse post-order an edge that does not go to a higher number closes a cycle. When a walk leaves
a block, each successor has been left or is one of the blocks that the walk is still inside of, and
from all of those the edges lead to the block.

## Results

* `Walk.visit_descends` — what a walk leaves before the successors of a block are left.
* `Schedule.leads_of_le` — an edge that does not go to a higher number closes a cycle.
* `Schedule.order_reversePostorder` — the order of the blocks, their edges and their dominators.
-/

namespace ArmBackend

/-- Whether edges lead from one block to another. -/
def LeadsTo (succ : Nat → List Nat) : Nat → Nat → Prop :=
  Relation.ReflTransGen fun x y => y ∈ succ x

namespace Walk

variable {succ : Nat → List Nat} {fuel count b i x : Nat} {v w : Walk} {row : List Nat}
  {Q : Nat → Prop}

/-- Every block of a row comes before its successors, but for those from which edges lead to it. -/
def Descends (succ : Nat → List Nat) : List Nat → Prop
  | [] => True
  | b :: row => (∀ x ∈ succ b, x ∈ row ∨ LeadsTo succ x b) ∧ Descends succ row

theorem Descends.later (h : Descends succ row) (hb : row[i]? = some b) (hx : x ∈ succ b) :
    (∃ j, i < j ∧ row[j]? = some x) ∨ LeadsTo succ x b := by
  induction row generalizing i with
  | nil => cases hb
  | cons a row ih =>
    cases i with
    | zero =>
      cases hb
      refine (h.1 x hx).imp_left fun hMem => ?_
      obtain ⟨j, hj⟩ := List.mem_iff_getElem?.mp hMem
      exact ⟨j + 1, Nat.succ_pos j, hj⟩
    | succ i =>
      refine (ih h.2 hb).imp_left ?_
      rintro ⟨j, hLt, hj⟩
      exact ⟨j + 1, Nat.succ_lt_succ hLt, hj⟩

/-- Whether what a walk has entered and not left satisfies `Q`. -/
def Inside (w : Walk) (Q : Nat → Prop) : Prop :=
  ∀ x ∈ w.seen, x ∈ w.left ∨ Q x

theorem Closes.inside (h : Closes succ w v) (hInside : w.Inside Q) : v.Inside Q := by
  intro x hx
  rcases h.left x hx with hOld | hLeft
  · exact (hInside x hOld).imp_left (h.kept x)
  · exact .inl hLeft

/-- Walking from several blocks, one after the other, from inside the same blocks. -/
theorem Descends.foldl (count : Nat) {l : List Nat} {f : Walk → Nat → Walk}
    (hRow : Descends succ w.left) (hInside : w.Inside Q)
    (hStep : ∀ x ∈ l, ∀ v, (unseen count v).card ≤ (unseen count w).card →
      Descends succ v.left → v.Inside Q → Descends succ (f v x).left ∧ Closes succ v (f v x)) :
    Descends succ (l.foldl f w).left := by
  induction l generalizing w with
  | nil => exact hRow
  | cons a l ih =>
    rw [List.foldl_cons]
    obtain ⟨hFirst, hCloses⟩ := hStep a List.mem_cons_self w le_rfl hRow hInside
    refine ih hFirst (hCloses.inside hInside) fun x hx v hv => ?_
    exact hStep x (List.mem_cons_of_mem _ hx) v (hv.trans (unseen_mono hCloses.seen))

/-- Edges lead to a block from all blocks that the walk is inside of when it comes to the block. So
when the block is left, they lead to it from those successors that are not left yet. -/
theorem visit_descends (hRange : ∀ b, ∀ x ∈ succ b, x < count) (hb : b < count)
    (hFuel : (unseen count w).card < fuel) (hRow : Descends succ w.left)
    (hInside : w.Inside (LeadsTo succ · b)) : Descends succ (visit succ fuel w b).left := by
  -- By induction on the fuel, which is more than the blocks that the walk has not entered.
  induction fuel generalizing w b with
  | zero => omega
  | succ fuel ih =>
    unfold visit
    split
    · exact hRow
    · next hFresh =>
      have hLess := unseen_enter hb hFresh
      have hEntered : Inside { w with seen := b :: w.seen } (LeadsTo succ · b) := by
        intro x hx
        rcases List.mem_cons.mp hx with rfl | hx
        · exact .inr .refl
        · exact hInside x hx
      obtain ⟨hCloses, hAll⟩ := Closes.foldl count (w := { w with seen := b :: w.seen })
        (l := (succ b).reverse) (f := fun w x => visit succ fuel w x) fun x hx v hv =>
          visit_closes hRange (hRange b x (List.mem_reverse.mp hx)) (by omega)
      refine ⟨fun x hx => ?_, Descends.foldl count hRow hEntered fun x hx v hv hRow hInside => ?_⟩
      · -- All successors have been entered, so each has been left or the walk is inside of it.
        exact hCloses.inside hEntered x (hAll x (List.mem_reverse.mpr hx))
      · have hx' := hRange b x (List.mem_reverse.mp hx)
        refine ⟨ih hx' (by omega) hRow fun y hy => ?_, (visit_closes hRange hx' (by omega)).1⟩
        -- The edge to the successor goes on from where the others lead.
        exact (hInside y hy).imp_right fun hLeads => hLeads.tail (List.mem_reverse.mp hx)

end Walk

theorem reversePostorder_descends {succ : Nat → List Nat} {count : Nat}
    (hRange : ∀ b, ∀ x ∈ succ b, x < count) (h0 : 0 < count) :
    Walk.Descends succ (reversePostorder succ count) := by
  refine Walk.visit_descends hRange h0 ?_ trivial ?_
  · exact Nat.lt_succ_of_le ((Finset.card_filter_le _ _).trans_eq (Finset.card_range _))
  · intro x hx
    cases hx

namespace Schedule

open Dominators

variable {s t u : Schedule} {table : Array (Option Nat)} {a b i j : Nat} {block : Block}

/-! ## Dominators and depths alone -/

/-- Whether a schedule has the blocks of another one, but for their dominators and depths. -/
structure Redecorates (s t : Schedule) : Prop where
  size : t.blocks.size = s.blocks.size
  block : ∀ (i : Nat) (block : Block), s.blocks[i]? = some block →
    ∃ dom depth, t.blocks[i]? = some { block with dom, depth }

theorem Redecorates.setDepth (h : s.Redecorates t) (b : Nat) : s.Redecorates (t.setDepth b) where
  size := (size_modifyBlock ..).trans h.size
  block i block hBlock := by
    obtain ⟨dom, depth, hNew⟩ := h.block i block hBlock
    unfold Schedule.setDepth
    rw [getElem?_modifyBlock, hNew]
    split
    · rw [Option.map_some]
      split
      · exact ⟨_, _, rfl⟩
      · exact ⟨_, _, rfl⟩
    · exact ⟨_, _, rfl⟩

theorem Redecorates.foldl (h : s.Redecorates t) (l : List Nat) :
    s.Redecorates (l.foldl Schedule.setDepth t) := by
  induction l generalizing t with
  | nil => exact h
  | cons b l ih => exact ih (h.setDepth b)

theorem redecorates_storeDominators : s.Redecorates (s.storeDominators table) where
  size := size_storeDominators
  block _ _ hBlock := ⟨_, _, storeDominators_getElem? hBlock⟩

theorem dominators_redecorates (h : s.dominators = .ok t) : s.Redecorates t := by
  unfold dominators at h
  obtain ⟨table, -, h⟩ := bind_eq_ok.mp h
  rw [← pure_eq_ok.mp h]
  exact redecorates_storeDominators.foldl _

theorem Redecorates.successors (h : s.Redecorates t) : t.successors = s.successors := by
  funext b
  unfold Schedule.successors
  cases hBlock : s.blocks[b]? with
  | none =>
    rw [Array.getElem?_eq_none (h.size ▸ Array.getElem?_eq_none_iff.mp hBlock)]
  | some block =>
    obtain ⟨dom, depth, hNew⟩ := h.block b block hBlock
    rw [hNew]
    rfl

theorem Redecorates.isPath (h : s.Redecorates t) {path : List Nat} :
    t.IsPath path b ↔ s.IsPath path b := by
  unfold IsPath
  rw [h.successors]

/-- The dominators are found whatever the depths were. -/
theorem Numbered.exists_dominators (hs : s.Numbered) (h0 : 0 < s.blocks.size) :
    ∃ t, s.dominators = .ok t := by
  obtain ⟨table, hOk, -⟩ := settle_spec hs h0
  unfold dominators
  dsimp only
  rw [hOk]
  exact ⟨_, rfl⟩

/-- Some path to a block goes through no higher number. -/
theorem Numbered.exists_path_le (hs : s.Numbered) (hb : b < s.blocks.size) :
    ∃ path, s.IsPath path b ∧ ∀ x ∈ path, x ≤ b := by
  induction b using Nat.strong_induction_on with
  | _ b ih =>
    by_cases hZero : b = 0
    · subst hZero
      exact ⟨[0], ⟨List.isChain_singleton 0, rfl, rfl⟩, by simp⟩
    · obtain ⟨p, hp, hLt⟩ := hs.earlier b (by omega) hb
      obtain ⟨path, hPath, hLe⟩ := ih p hLt (by omega)
      refine ⟨path ++ [b], hPath.concat ((hs.edges p b).mpr hp), fun x hx => ?_⟩
      rcases List.mem_append.mp hx with hx | hx
      · exact (hLe x hx).trans (Nat.le_of_lt hLt)
      · exact Nat.le_of_eq (List.mem_singleton.mp hx)

/-! ## Edges between the blocks that are kept -/

section Kept

variable (h : s.EdgesKnown) (h0 : 0 < s.blocks.size)
include h h0

/-- Edges that lead from a block that is kept lead from its place to the place of the other one. -/
theorem leads_renumber (hj : s.postorder[j]? = some b) (hLeads : LeadsTo s.successors b a) :
    ∃ i, s.postorder[i]? = some a ∧ LeadsTo (s.renumber s.postorder).successors j i := by
  induction hLeads with
  | refl => exact ⟨j, hj, .refl⟩
  | @tail x y hLeads hEdge ih =>
    obtain ⟨k, hk, hWay⟩ := ih
    have hx := (h.mem_postorder h0).mp (List.mem_of_getElem? hk)
    have hy : s.Reached y := by
      obtain ⟨path, hPath⟩ := hx
      exact ⟨path ++ [y], hPath.concat hEdge⟩
    obtain ⟨i, hi⟩ := List.mem_iff_getElem?.mp ((h.mem_postorder h0).mpr hy)
    exact ⟨i, hi, hWay.tail ((mem_successors_renumber h h0).mpr ⟨x, y, hk, hi, hEdge⟩)⟩

/-- An edge that does not go to a higher number closes a cycle. -/
theorem leads_of_le (hEdge : b ∈ s.successors a) (hi : s.postorder[i]? = some a)
    (hj : s.postorder[j]? = some b) (hLe : j ≤ i) : LeadsTo s.successors b a := by
  refine ((reversePostorder_descends h h0).later hi hEdge).resolve_left ?_
  rintro ⟨k, hLt, hk⟩
  have := postorder_inj hj hk
  omega

end Kept

/-! ## The order -/

/-- What the blocks of a schedule are like when they have been put in order. Blocks are named by
their position, in the edges too; position `i` has the block that is named at place `i` of the
order. -/
structure InReversePostorder (s t : Schedule) (order : List Nat) : Prop where
  nodup : order.Nodup
  /-- The blocks that can be reached are kept. -/
  mem_iff : ∀ b, b ∈ order ↔ b < s.blocks.size ∧ s.Reached b
  first : 0 < s.blocks.size → order[0]? = some 0
  size : t.blocks.size = order.length
  moved : ∀ (i b : Nat), order[i]? = some b → ∃ old new, s.blocks[b]? = some old ∧
    t.blocks[i]? = some new ∧ Moved old new ∧ new.succ = old.succ.filterMap (order.idxOf? ·)
  edges : ∀ i j, j ∈ t.successors i ↔
    ∃ a b, order[i]? = some a ∧ order[j]? = some b ∧ b ∈ s.successors a
  /-- An edge that does not go to a higher number closes a cycle. -/
  cycle : ∀ i j, j ∈ t.successors i → j ≤ i → LeadsTo t.successors j i
  forward : (∀ b, s.Reached b → ¬Relation.TransGen (fun x y => y ∈ s.successors x) b b) →
    ∀ i j, j ∈ t.successors i → i < j
  above : ∀ i j, j < t.blocks.size → t.StrictlyDominates i j → i < j

theorem inReversePostorder (hEdges : s.Consistent) (h0 : 0 < s.blocks.size)
    (hOk : (s.renumber s.postorder).dominators = .ok t) :
    InReversePostorder s t s.postorder := by
  have h := hEdges.edgesKnown
  have hIn : ∀ b ∈ s.postorder, b < s.blocks.size := fun b hb => h.lt_of_mem h0 hb
  have hSame := dominators_redecorates hOk
  have hSize : t.blocks.size = s.postorder.length := hSame.size.trans (size_renumber hIn)
  have hNumbered := hEdges.numbered h0
  refine { nodup := reversePostorder_nodup, mem_iff := ?mem_iff, first := fun _ => rfl,
           size := hSize, moved := ?moved, edges := ?edges, cycle := ?cycle, forward := ?forward,
           above := ?above }
  case mem_iff =>
    intro b
    rw [← h.mem_postorder h0]
    exact ⟨fun hb => ⟨hIn b hb, hb⟩, And.right⟩
  case moved =>
    intro i b hi
    have hBlock := Array.getElem?_eq_getElem (hIn b (List.mem_of_getElem? hi))
    obtain ⟨dom, depth, hNew⟩ := hSame.block i _ (renumber_getElem? hIn hi hBlock)
    exact ⟨_, _, hBlock, hNew, ⟨rfl, rfl, rfl, rfl⟩, rfl⟩
  case edges =>
    intro i j
    rw [hSame.successors, mem_successors_renumber h h0]
  case cycle =>
    -- The edge closes a cycle in the old schedule, all of whose blocks are kept.
    intro i j hEdge hLe
    rw [hSame.successors] at hEdge ⊢
    obtain ⟨a, b, hi, hj, hEdge⟩ := (mem_successors_renumber h h0).mp hEdge
    obtain ⟨k, hk, hLeads⟩ := leads_renumber h h0 hj (leads_of_le h h0 hEdge hi hj hLe)
    rwa [postorder_inj hi hk]
  case forward =>
    intro hAcyclic i j hEdge
    rw [hSame.successors] at hEdge
    obtain ⟨a, b, hi, hj, hEdge⟩ := (mem_successors_renumber h h0).mp hEdge
    by_contra hNot
    have hLeads := leads_of_le h h0 hEdge hi hj (Nat.not_lt.mp hNot)
    have ha := (h.mem_postorder h0).mp (List.mem_of_getElem? hi)
    exact hAcyclic a ha (.head' hEdge hLeads)
  case above =>
    -- A dominator is on every path, so also on one that goes through no higher number.
    rintro i j hj ⟨hDom, hNe⟩
    obtain ⟨path, hPath, hLe⟩ := hNumbered.exists_path_le (hSame.size ▸ hj)
    have hAll := (hDom.resolve_left hNe).2 path (hSame.isPath.mpr hPath)
    exact Nat.lt_of_le_of_ne (hLe i hAll) hNe

/-- Without blocks there is nothing to put in order. -/
theorem inReversePostorder_empty (hs : s.blocks.size = 0) (ht : t.blocks.size = 0) :
    InReversePostorder s t [] := by
  -- without blocks there are no edges, and every clause is empty
  have hNone : ∀ i j, j ∉ t.successors i := by
    intro i j hEdge
    unfold successors at hEdge
    rw [Array.getElem?_eq_none (by omega)] at hEdge
    cases hEdge
  refine { nodup := List.nodup_nil, mem_iff := ?mem_iff, first := by omega, size := ht,
           moved := ?moved, edges := ?edges, cycle := fun i j hEdge => absurd hEdge (hNone i j),
           forward := fun _ i j hEdge => absurd hEdge (hNone i j), above := by omega }
  case mem_iff =>
    intro b
    rw [hs]
    exact iff_of_false List.not_mem_nil fun hb => Nat.not_lt_zero b hb.1
  case moved =>
    intro i b hi
    cases hi
  case edges =>
    intro i j
    refine iff_of_false (hNone i j) ?_
    rintro ⟨a, b, hi, -⟩
    cases hi

/-- As many blocks are left as there were when none was dropped. -/
theorem InReversePostorder.size_eq_iff {order : List Nat} (h : InReversePostorder s t order) :
    t.blocks.size = s.blocks.size ↔ ∀ b < s.blocks.size, b ∈ order := by
  have hSub : order.Subperm (List.range s.blocks.size) :=
    List.subperm_of_subset h.nodup fun b hb => List.mem_range.mpr ((h.mem_iff b).mp hb).1
  rw [h.size]
  constructor
  · intro hSize b hb
    refine (hSub.perm_of_length_le ?_).mem_iff.mpr (List.mem_range.mpr hb)
    rw [List.length_range, hSize]
  · intro hAll
    have hRange : (List.range s.blocks.size).Subperm order :=
      List.subperm_of_subset List.nodup_range fun b hb => hAll b (List.mem_range.mp hb)
    have hLe := hSub.length_le
    have hGe := hRange.length_le
    rw [List.length_range] at hLe hGe
    exact Nat.le_antisymm hLe hGe

/-- Putting blocks in order ends with the blocks that can be reached from the first one, each once
and in reverse post-order, and tells whether those are all blocks. -/
theorem order_reversePostorder (hEdges : s.Consistent) :
    ∃ t all order, s.order = .ok (t, all) ∧ InReversePostorder s t order ∧
      (all = true ↔ ∀ b < s.blocks.size, b ∈ order) := by
  have hOrdered : ∃ t order, s.ordered = .ok t ∧ InReversePostorder s t order := by
    by_cases h0 : 0 < s.blocks.size
    · have hNumbered := hEdges.numbered h0
      obtain ⟨t, hOk⟩ := hNumbered.exists_dominators (by
        rw [size_renumber fun b hb => hEdges.edgesKnown.lt_of_mem h0 hb]
        exact List.length_pos_of_mem (List.mem_of_getElem? reversePostorder_head))
      exact ⟨t, s.postorder, hOk, inReversePostorder hEdges h0 hOk⟩
    · -- no blocks at all
      obtain ⟨blocks, home⟩ := s
      obtain rfl : blocks = #[] := Array.eq_empty_of_size_eq_zero (Nat.eq_zero_of_not_pos h0)
      exact ⟨_, [], rfl, inReversePostorder_empty rfl rfl⟩
  obtain ⟨t, order, hOk, hOrder⟩ := hOrdered
  refine ⟨t, decide (t.blocks.size = s.blocks.size), order, ?_, hOrder, ?_⟩
  · unfold Schedule.order
    rw [hOk]
    rfl
  · rw [decide_eq_true_iff]
    exact hOrder.size_eq_iff

theorem order_reversePostorder_crossing :
    crossing.Consistent ∧ ∃ t all order, crossing.order = .ok (t, all) ∧
      InReversePostorder crossing t order ∧ (all = true ↔ ∀ b < 4, b ∈ order) := by
  have hEdges : crossing.Consistent := crossing_unordered.edges.consistent
  exact ⟨hEdges, order_reversePostorder hEdges⟩

end Schedule
end ArmBackend
