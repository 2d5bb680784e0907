import ArmBackend.Schedule.Order
import Mathlib.Data.Finset.Card
import Mathlib.Data.Finset.Range
import Mathlib.Data.List.Chain
import Mathlib.Tactic.Common

/-!
# Walks over blocks

A depth-first walk leaves each block once, and only blocks that it came to along an edge. With enough
fuel it leaves nothing out: when it is done, every successor of a block it has entered is entered.

## Results

* `Walk.visit_extends` — what a walk adds to the blocks it has left.
* `Walk.visit_closes` — a walk leaves no edge unfollowed.
* `of_mem_reversePostorder`, `reversePostorder_nodup` — the order of blocks that a walk gives.
* `mem_reachedWithout` — the walk around a block finds every path around it.
-/

namespace ArmBackend

namespace Walk

variable {P : Nat → Prop} {succ : Nat → List Nat} {fuel : Nat} {u v w : Walk} {b : Nat}

/-- How a walk goes on: it forgets no block, and the blocks it leaves are new, different and
all of them satisfy `P`. -/
structure Extends (P : Nat → Prop) (w v : Walk) : Prop where
  seen : ∀ x ∈ w.seen, x ∈ v.seen
  left : ∃ new, v.left = new ++ w.left ∧ new.Nodup ∧ ∀ x ∈ new, x ∈ v.seen ∧ x ∉ w.seen ∧ P x

theorem Extends.refl : Extends P w w :=
  ⟨fun _ hx => hx, [], rfl, List.nodup_nil, by simp⟩

theorem Extends.trans (h : Extends P w v) (h' : Extends P v u) : Extends P w u := by
  obtain ⟨new, hLeft, hNodup, hNew⟩ := h.left
  obtain ⟨new', hLeft', hNodup', hNew'⟩ := h'.left
  refine ⟨fun x hx => h'.seen x (h.seen x hx), new' ++ new, ?_, ?_, ?_⟩
  · rw [hLeft', hLeft, List.append_assoc]
  · refine hNodup'.append hNodup ?_
    intro x hx' hx
    exact (hNew' x hx').2.1 (hNew x hx).1
  · intro x hx
    rcases List.mem_append.mp hx with hx' | hx
    · obtain ⟨hSeen, hFresh, hP⟩ := hNew' x hx'
      exact ⟨hSeen, fun hOld => hFresh (h.seen x hOld), hP⟩
    · obtain ⟨hSeen, hFresh, hP⟩ := hNew x hx
      exact ⟨h'.seen x hSeen, hFresh, hP⟩

theorem Extends.foldl {l : List Nat} {f : Walk → Nat → Walk}
    (hStep : ∀ x ∈ l, ∀ v, (∀ y ∈ w.seen, y ∈ v.seen) → Extends P v (f v x)) :
    Extends P w (l.foldl f w) := by
  induction l generalizing w with
  | nil => exact Extends.refl
  | cons x l ih =>
    rw [List.foldl_cons]
    have hFirst := hStep x List.mem_cons_self w fun _ hy => hy
    refine hFirst.trans (ih ?_)
    intro y hy v hv
    exact hStep y (List.mem_cons_of_mem _ hy) v fun z hz => hv z (hFirst.seen z hz)

/-- A walk around blocks that count as entered from the start does not follow their edges. -/
theorem visit_extends_around (avoid : List Nat)
    (hClosed : ∀ b x, b ∉ avoid → P b → x ∈ succ b → P x) (hAvoid : ∀ x ∈ avoid, x ∈ w.seen)
    (hb : P b) : Extends P w (visit succ fuel w b) := by
  induction fuel generalizing w b with
  | zero => exact Extends.refl
  | succ fuel ih =>
    unfold visit
    split
    · exact Extends.refl
    · next hFresh =>
      -- The successors are visited with the block itself counted as seen.
      have hInner : Extends P { w with seen := b :: w.seen }
          ((succ b).reverse.foldl (fun w x => visit succ fuel w x)
            { w with seen := b :: w.seen }) := by
        refine Extends.foldl ?_
        intro x hx v hv
        refine ih (fun y hy => hv y (List.mem_cons_of_mem _ (hAvoid y hy))) ?_
        exact hClosed b x (fun hIn => hFresh (hAvoid b hIn)) hb (List.mem_reverse.mp hx)
      obtain ⟨new, hLeft, hNodup, hNew⟩ := hInner.left
      refine ⟨fun x hx => hInner.seen x (List.mem_cons_of_mem _ hx), b :: new, ?_, ?_, ?_⟩
      · show b :: _ = b :: new ++ w.left
        rw [hLeft, List.cons_append]
      · refine List.nodup_cons.mpr ⟨?_, hNodup⟩
        intro hIn
        exact (hNew b hIn).2.1 List.mem_cons_self
      · intro x hx
        rcases List.mem_cons.mp hx with rfl | hx
        · exact ⟨hInner.seen x List.mem_cons_self, hFresh, hb⟩
        · obtain ⟨hSeen, hNot, hP⟩ := hNew x hx
          exact ⟨hSeen, fun hOld => hNot (List.mem_cons_of_mem _ hOld), hP⟩

/-- A walk from a block leaves blocks that can be reached from it, each of them once. -/
theorem visit_extends (hClosed : ∀ b x, P b → x ∈ succ b → P x) (hb : P b) :
    Extends P w (visit succ fuel w b) :=
  visit_extends_around [] (fun b x _ => hClosed b x) (by simp) hb

/-! ## Nothing is left out -/

/-- How a walk goes on when it has time enough: what is entered is left, and the successors of what
is entered are entered. -/
structure Closes (succ : Nat → List Nat) (w v : Walk) : Prop where
  seen : ∀ x ∈ w.seen, x ∈ v.seen
  kept : ∀ x ∈ w.left, x ∈ v.left
  left : ∀ x ∈ v.seen, x ∈ w.seen ∨ x ∈ v.left
  closed : ∀ x ∈ v.seen, x ∈ w.seen ∨ ∀ y ∈ succ x, y ∈ v.seen

theorem Closes.refl : Closes succ w w :=
  ⟨fun _ hx => hx, fun _ hx => hx, fun _ hx => .inl hx, fun _ hx => .inl hx⟩

theorem Closes.trans (h : Closes succ w v) (h' : Closes succ v u) : Closes succ w u := by
  refine ⟨fun x hx => h'.seen x (h.seen x hx), fun x hx => h'.kept x (h.kept x hx), ?_, ?_⟩
  · intro x hx
    rcases h'.left x hx with hOld | hNew
    · exact (h.left x hOld).imp_right (h'.kept x)
    · exact .inr hNew
  · intro x hx
    rcases h'.closed x hx with hOld | hNew
    · refine (h.closed x hOld).imp_right fun hSucc y hy => ?_
      exact h'.seen y (hSucc y hy)
    · exact .inr hNew

/-- The blocks that have not been entered. -/
def unseen (count : Nat) (w : Walk) : Finset Nat :=
  (Finset.range count).filter fun x => x ∉ w.seen

theorem unseen_mono {count : Nat} (h : ∀ x ∈ w.seen, x ∈ v.seen) :
    (unseen count v).card ≤ (unseen count w).card := by
  refine Finset.card_le_card fun x hx => ?_
  rw [unseen, Finset.mem_filter] at hx ⊢
  exact ⟨hx.1, fun hSeen => hx.2 (h x hSeen)⟩

theorem unseen_enter {count : Nat} (hb : b < count) (hFresh : b ∉ w.seen) :
    (unseen count { w with seen := b :: w.seen }).card < (unseen count w).card := by
  refine Finset.card_lt_card (Finset.ssubset_iff_of_subset ?_ |>.mpr ⟨b, ?_, ?_⟩)
  · intro x hx
    rw [unseen, Finset.mem_filter] at hx ⊢
    exact ⟨hx.1, fun hSeen => hx.2 (List.mem_cons_of_mem _ hSeen)⟩
  · rw [unseen, Finset.mem_filter, Finset.mem_range]
    exact ⟨hb, hFresh⟩
  · rw [unseen, Finset.mem_filter]
    exact fun hx => hx.2 List.mem_cons_self

/-- Walking from several blocks, one after the other. -/
theorem Closes.foldl (count : Nat) {l : List Nat} {f : Walk → Nat → Walk}
    (hStep : ∀ x ∈ l, ∀ v, (unseen count v).card ≤ (unseen count w).card →
      Closes succ v (f v x) ∧ x ∈ (f v x).seen) :
    Closes succ w (l.foldl f w) ∧ ∀ x ∈ l, x ∈ (l.foldl f w).seen := by
  induction l generalizing w with
  | nil => exact ⟨Closes.refl, by simp⟩
  | cons a l ih =>
    rw [List.foldl_cons]
    obtain ⟨hFirst, hSeen⟩ := hStep a List.mem_cons_self w le_rfl
    obtain ⟨hRest, hAll⟩ := ih fun x hx v hv =>
      hStep x (List.mem_cons_of_mem _ hx) v (hv.trans (unseen_mono hFirst.seen))
    refine ⟨hFirst.trans hRest, ?_⟩
    intro x hx
    rcases List.mem_cons.mp hx with rfl | hx
    · exact hRest.seen x hSeen
    · exact hAll x hx

/-- A walk enters the block it starts from, and follows every edge of what it enters. -/
theorem visit_closes {count : Nat} (hRange : ∀ b, ∀ x ∈ succ b, x < count) (hb : b < count)
    (hFuel : (unseen count w).card < fuel) :
    Closes succ w (visit succ fuel w b) ∧ b ∈ (visit succ fuel w b).seen := by
  induction fuel generalizing w b with
  | zero => omega
  | succ fuel ih =>
    unfold visit
    split
    · next hSeen => exact ⟨Closes.refl, hSeen⟩
    · next hFresh =>
      -- Entering the block uses up one unseen block, as it uses up one unit of fuel.
      have hLess := unseen_enter hb hFresh
      obtain ⟨hInner, hAll⟩ := Closes.foldl count (w := { w with seen := b :: w.seen })
        (l := (succ b).reverse) (f := fun w x => visit succ fuel w x)
        fun x hx v hv => ih (hRange b x (List.mem_reverse.mp hx)) (by omega)
      have hSelf := hInner.seen b List.mem_cons_self
      refine ⟨⟨?_, ?_, ?_, ?_⟩, hSelf⟩
      · exact fun x hx => hInner.seen x (List.mem_cons_of_mem _ hx)
      · exact fun x hx => List.mem_cons_of_mem _ (hInner.kept x hx)
      · intro x hx
        rcases hInner.left x hx with hOld | hNew
        · rcases List.mem_cons.mp hOld with rfl | hOld
          · exact .inr List.mem_cons_self
          · exact .inl hOld
        · exact .inr (List.mem_cons_of_mem _ hNew)
      · intro x hx
        rcases hInner.closed x hx with hOld | hNew
        · rcases List.mem_cons.mp hOld with rfl | hOld
          · exact .inr fun y hy => hAll y (List.mem_reverse.mpr hy)
          · exact .inl hOld
        · exact .inr hNew

/-- Along a path of blocks that are new to a walk everything is left. -/
theorem Closes.left_of_path {path : List Nat} (h : Closes succ w v)
    (hChain : path.IsChain fun x y => y ∈ succ x)
    (hFirst : ∀ x, path.head? = some x → x ∈ v.seen) (hNew : ∀ x ∈ path, x ∉ w.seen)
    (hb : b ∈ path) : b ∈ v.left := by
  -- induction along the path: each node is found by the walk and left by its end
  induction path with
  | nil => cases hb
  | cons x path ih =>
    have hx := hFirst x rfl
    have hFresh := hNew x List.mem_cons_self
    rcases List.mem_cons.mp hb with rfl | hb
    · exact (h.left _ hx).resolve_left hFresh
    · refine ih hChain.tail ?_ (fun y hy => hNew y (List.mem_cons_of_mem _ hy)) hb
      intro y hy
      have hEdge : y ∈ succ x := by
        cases path with
        | nil => cases hy
        | cons z path =>
          cases hy
          exact (List.isChain_cons_cons.mp hChain).1
      exact (h.closed x hx).resolve_left hFresh y hEdge

/-! ## Where a walk comes from -/

/-- Every block of a row is one of the roots or comes after a block with an edge to it. -/
def Led (succ : Nat → List Nat) (roots row : List Nat) : Prop :=
  ∀ (i x : Nat), row[i]? = some x →
    x ∈ roots ∨ ∃ j < i, ∃ y, row[j]? = some y ∧ x ∈ succ y

theorem Led.append {roots front row : List Nat} (hFront : Led succ roots front)
    (hRow : Led succ roots row) : Led succ roots (front ++ row) := by
  intro i x hx
  by_cases hi : i < front.length
  · rw [List.getElem?_append_left hi] at hx
    refine (hFront i x hx).imp_right ?_
    rintro ⟨j, hj, y, hy, hEdge⟩
    exact ⟨j, hj, y, by rw [List.getElem?_append_left (by omega)]; exact hy, hEdge⟩
  · rw [List.getElem?_append_right (by omega)] at hx
    refine (hRow _ x hx).imp_right ?_
    rintro ⟨j, hj, y, hy, hEdge⟩
    refine ⟨front.length + j, by omega, y, ?_, hEdge⟩
    rw [List.getElem?_append_right (by omega), Nat.add_sub_cancel_left]
    exact hy

theorem Led.foldl {roots l : List Nat} {f : Walk → Nat → Walk}
    (hStep : ∀ x ∈ l, ∀ w, ∃ new, (f w x).left = new ++ w.left ∧ Led succ roots new) :
    ∃ new, (l.foldl f w).left = new ++ w.left ∧ Led succ roots new := by
  induction l generalizing w with
  | nil => exact ⟨[], rfl, by intro i x hx; cases hx⟩
  | cons a l ih =>
    rw [List.foldl_cons]
    obtain ⟨new, hNew, hLed⟩ := hStep a List.mem_cons_self w
    obtain ⟨rest, hRest, hLed'⟩ := ih (w := f w a) fun x hx => hStep x (List.mem_cons_of_mem _ hx)
    refine ⟨rest ++ new, ?_, hLed'.append hLed⟩
    rw [hRest, hNew, List.append_assoc]

/-- A block is left before the block that the walk came to it from. -/
theorem visit_led : ∃ new, (visit succ fuel w b).left = new ++ w.left ∧ Led succ [b] new := by
  have hNone : Led succ [b] [] := by
    intro i x hx
    cases hx
  induction fuel generalizing w b with
  | zero => exact ⟨[], rfl, hNone⟩
  | succ fuel ih =>
    unfold visit
    split
    · exact ⟨[], rfl, hNone⟩
    · -- The roots of the walks from the successors are the successors; `b` goes in front of them.
      have hStep : ∀ x ∈ (succ b).reverse, ∀ w : Walk, ∃ new,
          (visit succ fuel w x).left = new ++ w.left ∧ Led succ (succ b) new := by
        intro x hx w
        obtain ⟨new, hNew, hLed⟩ := ih (w := w) (b := x) (by intro i y hy; cases hy)
        refine ⟨new, hNew, fun i y hy => (hLed i y hy).imp_left fun hRoot => ?_⟩
        rw [List.mem_singleton.mp hRoot]
        exact List.mem_reverse.mp hx
      obtain ⟨new, hNew, hLed⟩ := Led.foldl (w := { w with seen := b :: w.seen }) hStep
      refine ⟨b :: new, ?_, ?_⟩
      · show b :: _ = b :: new ++ w.left
        rw [hNew, List.cons_append]
      · intro i x hx
        cases i with
        | zero =>
          cases hx
          exact .inl List.mem_cons_self
        | succ i =>
          refine .inr ?_
          rcases hLed i x hx with hRoot | ⟨j, hj, y, hy, hEdge⟩
          · exact ⟨0, by omega, b, rfl, hRoot⟩
          · exact ⟨j + 1, by omega, y, hy, hEdge⟩

end Walk

section Postorder

variable {P : Nat → Prop} {succ : Nat → List Nat} {count b : Nat}

/-- What holds of the first block and is handed on along edges holds of all blocks in the order. -/
theorem of_mem_reversePostorder (hClosed : ∀ b x, P b → x ∈ succ b → P x) (h0 : P 0)
    (hb : b ∈ reversePostorder succ count) : P b := by
  have hWalk : Walk.Extends P {} (Walk.visit succ (count + 1) {} 0) :=
    Walk.visit_extends hClosed h0
  obtain ⟨new, hLeft, -, hNew⟩ := hWalk.left
  unfold reversePostorder at hb
  rw [hLeft, List.append_nil] at hb
  exact (hNew b hb).2.2

theorem reversePostorder_nodup : (reversePostorder succ count).Nodup := by
  have hWalk : Walk.Extends (fun _ => True) {} (Walk.visit succ (count + 1) {} 0) :=
    Walk.visit_extends (fun _ _ _ _ => trivial) trivial
  obtain ⟨new, hLeft, hNodup, -⟩ := hWalk.left
  unfold reversePostorder
  rw [hLeft, List.append_nil]
  exact hNodup

/-- Every block of the order but the first comes after a block with an edge to it. -/
theorem reversePostorder_led {i : Nat} (hi : 0 < i)
    (hb : (reversePostorder succ count)[i]? = some b) :
    ∃ j < i, ∃ a, (reversePostorder succ count)[j]? = some a ∧ b ∈ succ a := by
  obtain ⟨new, hNew, hLed⟩ : ∃ new, (Walk.visit succ (count + 1) {} 0).left = new ++ [] ∧
      Walk.Led succ [0] new := Walk.visit_led
  have hRow : reversePostorder succ count = new := by
    unfold reversePostorder
    rw [hNew, List.append_nil]
  -- The only root is block 0, which has the first place and no other.
  refine (hRow ▸ hLed i b (hRow ▸ hb)).resolve_left fun hRoot => ?_
  rw [List.mem_singleton.mp hRoot] at hb
  have hFirst : (reversePostorder succ count)[0]? = some 0 := rfl
  have hEq : i = 0 := (List.getElem?_inj (List.getElem?_eq_some_iff.mp hb).1
    reversePostorder_nodup).mp (hb.trans hFirst.symm)
  omega

/-- The order has every block that a path leads to. -/
theorem mem_reversePostorder {path : List Nat} (hRange : ∀ b, ∀ x ∈ succ b, x < count)
    (h0 : 0 < count) (hChain : path.IsChain fun x y => y ∈ succ x) (hHead : path.head? = some 0)
    (hb : b ∈ path) : b ∈ reversePostorder succ count := by
  obtain ⟨hWalk, hStart⟩ : Walk.Closes succ {} (Walk.visit succ (count + 1) {} 0) ∧
      0 ∈ (Walk.visit succ (count + 1) {} 0).seen := by
    refine Walk.visit_closes hRange h0 ?_
    exact Nat.lt_succ_of_le ((Finset.card_filter_le _ _).trans_eq (Finset.card_range _))
  refine hWalk.left_of_path hChain ?_ (by simp) hb
  rw [hHead]
  rintro x ⟨⟩
  exact hStart

theorem reversePostorder_head : (reversePostorder succ count)[0]? = some 0 :=
  rfl

/-- The blocks that can be reached from block 0 without entering block `a`. -/
def reachedWithout (succ : Nat → List Nat) (count a : Nat) : List Nat :=
  (Walk.visit succ (count + 1) { seen := [a] } 0).left

/-- Without the first block nothing can be reached. -/
theorem reachedWithout_zero (succ : Nat → List Nat) (count : Nat) :
    reachedWithout succ count 0 = [] := by
  unfold reachedWithout Walk.visit
  rw [if_pos List.mem_cons_self]

/-- The walk around a block finds whatever a path around it leads to. -/
theorem mem_reachedWithout {a : Nat} {path : List Nat} (hRange : ∀ b, ∀ x ∈ succ b, x < count)
    (h0 : 0 < count) (hChain : path.IsChain fun x y => y ∈ succ x) (hHead : path.head? = some 0)
    (hAvoids : a ∉ path) (hb : b ∈ path) : b ∈ reachedWithout succ count a := by
  obtain ⟨hWalk, hStart⟩ : Walk.Closes succ { seen := [a] } (Walk.visit succ (count + 1)
      { seen := [a] } 0) ∧ 0 ∈ (Walk.visit succ (count + 1) { seen := [a] } 0).seen := by
    refine Walk.visit_closes hRange h0 ?_
    refine Nat.lt_succ_of_le ((Finset.card_filter_le _ _).trans_eq (Finset.card_range _))
  refine hWalk.left_of_path hChain ?_ ?_ hb
  · rw [hHead]
    rintro x ⟨⟩
    exact hStart
  · intro x hx hOut
    rw [List.mem_singleton.mp hOut] at hx
    exact hAvoids hx

end Postorder

end ArmBackend
