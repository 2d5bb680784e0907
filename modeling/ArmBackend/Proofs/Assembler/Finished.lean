import ArmBackend.Proofs.Assembler.Effects
import Mathlib.Data.Set.Function

/-!
# Finished programs

A program that has closed its last block can be finished. The graph then verifies, and the schedule
has every block that was created: putting the blocks into order only gives them new numbers, along
which all edges go up. What the operations kept true of the blocks under construction is true of the
finished ones, for none of it depends on the numbers.

## Results

* `Sound` — what is true of the assembler of every program.
* `WellBuilt` — a graph and a schedule that are consistent with the program that built them.
* `assembled_wellBuilt` — every program that can be finished gives such a graph and schedule.
-/

namespace ArmBackend

/-! ## New numbers for the blocks -/

namespace Schedule.Renumbered

open Assembler

variable {s t : Schedule} {g : Graph} {position : Nat → Nat} {entry : Nat → NodeId} {b i : Nat}

/-- A position that has something is that of a block. -/
theorem exists_block (h : Renumbered position s t) {x : NodeId} (hx : x ∈ t.nodesOf i) :
    ∃ b < s.blocks.size, position b = i ∧ x ∈ s.nodesOf b := by
  obtain ⟨b, hb, rfl⟩ := h.surjective i (lt_of_mem_nodesOf hx)
  exact ⟨b, hb, rfl, h.nodes b hb ▸ hx⟩

theorem laid (h : Renumbered position s t) (hLaid : Laid s) : Laid t := by
  refine ⟨fun i => ?_, fun i j x hi hj => ?_⟩
  · by_cases hi : i < t.blocks.size
    · obtain ⟨b, hb, rfl⟩ := h.surjective i hi
      rw [h.nodes b hb]
      exact hLaid.sorted b
    · rw [nodesOf_of_le (Nat.not_lt.mp hi)]
      exact List.Pairwise.nil
  · obtain ⟨b, hb, rfl, hx⟩ := h.exists_block hi
    obtain ⟨c, hc, rfl, hx'⟩ := h.exists_block hj
    rw [hLaid.once b c x hx hx']

theorem length_predecessors (h : Renumbered position s t) (hb : b < s.blocks.size) :
    (t.predecessors (position b)).length = (s.predecessors b).length := by
  rw [h.predecessors b hb, List.length_map]

theorem joined (h : Renumbered position s t) (hJoined : Joined g s) : Joined g t := by
  refine ⟨fun i x n hx hn hOp => ?_, fun i n id hId hn hOp => ?_, fun i n id hId hn hOp => ?_⟩
  · obtain ⟨b, hb, rfl⟩ := h.surjective i (headOf?_lt hx)
    rw [h.length_predecessors hb]
    exact hJoined.merges b x n (h.heads b hb ▸ hx) hn hOp
  · obtain ⟨b, hb, rfl, hMem⟩ := h.exists_block hId
    rw [h.length_predecessors hb]
    exact hJoined.phis b n id hMem hn hOp
  · obtain ⟨b, hb, rfl, hMem⟩ := h.exists_block hId
    rw [h.length_predecessors hb]
    exact hJoined.effectPhis b n id hMem hn hOp

theorem threaded (h : Renumbered position s t) (hThreaded : Threaded g s entry)
    (h0 : 0 < s.blocks.size) (hPred : ∀ b, ∀ p ∈ s.predecessors b, p < s.blocks.size) :
    ∃ entry', Threaded g t entry' := by
  -- The entry at a new position is that of the block which is there.
  obtain ⟨back, hBack⟩ : ∃ back : Nat → Nat, ∀ b < s.blocks.size, back (position b) = b := by
    have hInj : Set.InjOn position {b | b < s.blocks.size} := fun a ha b hb hEq =>
      h.injective a ha b hb hEq
    exact ⟨Function.invFunOn position {b | b < s.blocks.size}, hInj.leftInvOn_invFunOn⟩
  have hAccesses : ∀ b < s.blocks.size, accesses g t (position b) = accesses g s b := by
    intro b hb
    unfold accesses
    rw [h.nodes b hb]
  have hLeaving : ∀ b < s.blocks.size, leavingEffect g t (entry ∘ back) (position b) =
      leavingEffect g s entry b := by
    intro b hb
    unfold leavingEffect
    rw [hAccesses b hb, Function.comp_apply, hBack b hb]
  refine ⟨entry ∘ back, ?_, fun i hi => ?_, fun i hPos hi => ?_⟩
  · rw [← h.first, Function.comp_apply, hBack 0 h0]
    exact hThreaded.start
  · obtain ⟨b, hb, rfl⟩ := h.surjective i hi
    rw [hAccesses b hb, Function.comp_apply, hBack b hb]
    exact hThreaded.chain b hb
  · obtain ⟨b, hb, rfl⟩ := h.surjective i hi
    -- Only the first block is at the first position.
    have hNonzero : 0 < b := by
      by_contra hZero
      obtain rfl : b = 0 := by omega
      rw [h.first] at hPos
      exact Nat.lt_irrefl 0 hPos
    cases hThreaded.arrives b hNonzero hb with
    | agreed hAll =>
      refine .agreed fun p hp => ?_
      rw [h.predecessors b hb] at hp
      obtain ⟨q, hq, rfl⟩ := List.mem_map.mp hp
      rw [hLeaving q (hPred b q hq), hAll q hq, Function.comp_apply, hBack b hb]
    | @joined head hDiffer hMem hHead hJoin =>
      refine .joined ?_ ?_ ((h.heads b hb).trans hHead) ?_
      · obtain ⟨p, hp, q, hq, hNe⟩ := hDiffer
        refine ⟨position p, ?_, position q, ?_, ?_⟩
        · rw [h.predecessors b hb]
          exact List.mem_map_of_mem hp
        · rw [h.predecessors b hb]
          exact List.mem_map_of_mem hq
        · rw [hLeaving p (hPred b p hp), hLeaving q (hPred b q hq)]
          exact hNe
      · rw [Function.comp_apply, hBack b hb, h.nodes b hb]
        exact hMem
      · have hMap : (t.predecessors (position b)).map (leavingEffect g t (entry ∘ back)) =
            (s.predecessors b).map (leavingEffect g s entry) := by
          rw [h.predecessors b hb, List.map_map]
          exact List.map_congr_left fun p hp => hLeaving p (hPred b p hp)
        rw [Function.comp_apply, hBack b hb, hMap]
        exact hJoin

end Schedule.Renumbered

namespace Assembler

variable {params : List MachineType} {past : List Event} {a a' : Assembler} {op : Operation}
  {result : Option NodeId} {b : Nat}

/-! ## Every program -/

/-- What is true of the assembler of a program. -/
structure Sound (past : List Event) (a : Assembler) : Prop where
  flow : Flow past a
  grounded : Grounded past a
  laid : Laid a.schedule
  held : Held past a.schedule
  joined : Joined a.graph a.schedule
  effects : ∃ entry, Effects entry a

theorem Sound.step (h : Sound past a)
    (hArguments : ∀ x ∈ op.arguments, ∃ e ∈ past, e.result = some x)
    (hStep : Step a op result a') : Sound (⟨op, result, a, a'⟩ :: past) a' := by
  obtain ⟨entry, hEffects⟩ := h.effects
  exact {
    flow := h.flow.step hStep
    grounded := h.grounded.step h.flow hArguments hStep
    laid := h.laid.step h.grounded h.flow hStep
    held := h.held.step h.flow hStep
    joined := h.joined.step h.grounded h.flow hStep
    effects := hEffects.step h.grounded h.flow hStep }

/-- An assembler with nothing but its start node and a block for it. -/
def initial : Assembler :=
  { schedule := ({} : Schedule).newBlock Graph.start |>.1.place 0 Graph.start, current := some 0 }

/-! ### The assembler of an empty program

It has one block, which starts with the start node, and nothing else. -/

theorem headOf?_initial (b : Nat) :
    initial.schedule.headOf? b = if b = 0 then some Graph.start else none := by
  cases b <;> rfl

theorem nodesOf_initial (b : Nat) : initial.schedule.nodesOf b = [] := by
  cases b <;> rfl

theorem predecessors_initial (b : Nat) : initial.schedule.predecessors b = [] := by
  cases b <;> rfl

theorem initial_flow : Flow [] initial := by
  refine { size := rfl, blocks := fun b c hc => ?_,
           unordered := Schedule.Unordered.ofHeads Graph.start [] _, current := ?_,
           jumps := fun _ => rfl, left := fun _ j hj => ?_, earlier := fun b p hp => ?_,
           entered := fun b h0 hb => ?_ }
  · cases b with
    | zero =>
      cases hc
      exact ⟨rfl, rfl⟩
    | succ b => cases hc
  · rintro b ⟨⟩
    rfl
  · cases hj
  · rw [predecessors_initial] at hp
    cases hp
  · have hOne : initial.schedule.blocks.size = 1 := rfl
    omega

/-- Only the start node is known to the assembler, and it is there. -/
theorem initial_grounded : Grounded [] initial := by
  have hStart : initial.graph.Knows Graph.start := ⟨{ op := .start }, rfl⟩
  have hList : initial.graph.nodes.toList = [{ op := .start }] := rfl
  refine ⟨⟨?_, ?_⟩, fun x hx => ?_, fun e he => absurd he List.not_mem_nil⟩
  · intro n hn
    rw [hList] at hn
    rw [List.mem_singleton.mp hn]
    rfl
  · intro n hn x hx
    rw [hList] at hn
    rw [List.mem_singleton.mp hn] at hx
    cases hx
  · -- Nothing is referred to yet but the start.
    cases hx with
    | control => exact hStart
    | effect => exact hStart
    | param hx => cases hx
    | returned hx => cases hx
    | jumpControl hj => cases hj
    | jumpEffect hj => cases hj
    | head hx =>
      rw [headOf?_initial] at hx
      obtain ⟨-, hHead⟩ := Option.ite_none_right_eq_some.mp hx
      cases hHead
      exact hStart
    | node hx =>
      rw [nodesOf_initial] at hx
      cases hx

theorem initial_effects : Effects (fun _ => Graph.start) initial := by
  have hOne : initial.schedule.blocks.size = 1 := rfl
  refine ⟨⟨rfl, fun b hb => ?_, fun b h0 hb => ?_⟩, ?_, fun _ j hj => ?_⟩
  · unfold accesses
    rw [nodesOf_initial]
    exact List.isChain_singleton _
  · omega
  · rintro b ⟨⟩
    rfl
  · cases hj

theorem initial_sound : Sound [] initial where
  flow := initial_flow
  grounded := initial_grounded
  laid := by
    refine ⟨fun b => ?_, fun b c x hx => ?_⟩
    · rw [nodesOf_initial]
      exact List.Pairwise.nil
    · rw [nodesOf_initial] at hx
      cases hx
  held := fun e he => absurd he List.not_mem_nil
  joined := by
    refine ⟨fun b x n hx hn hOp => ?_, fun b n id hId => ?_, fun b n id hId => ?_⟩
    · -- The one block starts with no merge.
      rw [headOf?_initial] at hx
      obtain ⟨-, hHead⟩ := Option.ite_none_right_eq_some.mp hx
      cases hHead
      cases hn
      cases hOp
    · rw [nodesOf_initial] at hId
      cases hId
    · rw [nodesOf_initial] at hId
      cases hId
  effects := ⟨_, initial_effects⟩

theorem emit_succeeds {n : Node} (hOpen : a.current = some b) :
    Runs (emit n) a a.graph.size (a.placed b n) := by
  refine runs_bind.mpr ⟨_, _, runs_push.mpr ⟨rfl, rfl⟩, ?_⟩
  unfold Assembler.append
  refine runs_bind.mpr ⟨_, _, runs_get.mpr ⟨rfl, rfl⟩, ?_⟩
  split
  · next c hCurrent =>
    obtain rfl : b = c := Option.some.inj (hOpen.symm.trans hCurrent)
    rfl
  · next hNone => exact absurd (hOpen.symm.trans hNone) (Option.some_ne_none b)

/-- A parameter is placed in the first block, where the start node controls it. -/
theorem Sound.withParameter (h : Sound [] a) (hOpen : a.current = some b) (index : Int)
    (type : MachineType) :
    Sound [] { a.placed b (.parameter index type) with
      params := a.params ++ [(a.graph.size : Int)] } := by
  have hb := h.flow.open_lt hOpen
  obtain ⟨entry, hEffects⟩ := h.effects
  obtain ⟨hThreaded, hCurrent, hJumps⟩ :=
    hEffects.placed (n := .parameter index type) h.grounded h.flow hOpen rfl
  have hStart : a.graph.Knows Graph.start := by
    obtain ⟨hHead, -⟩ := h.flow.blocks 0 ⟨Graph.start, []⟩ rfl
    exact h.grounded.mentions _ (.head hHead)
  -- a parameter hangs on the start node, which heads block zero
  have hPlaced : Grounded [] (a.placed b (.parameter index type)) := by
    refine h.grounded.placed hb rfl fun x hx => ?_
    rw [List.mem_singleton.mp hx]
    exact hStart
  exact {
    flow := h.flow.placed.withParams _
    grounded := hPlaced.withParam ⟨_, a.graph.node?_push _⟩
    laid := h.laid.placed h.grounded hb
    held := fun e he => absurd he List.not_mem_nil
    joined := h.joined.placed h.grounded hb nofun nofun
    effects := ⟨entry, hThreaded, hCurrent, hJumps⟩ }

theorem addParams_induct {P : Assembler → Prop}
    (hStep : ∀ a b index type, P a → a.current = some b →
      P { a.placed b (.parameter index type) with params := a.params ++ [(a.graph.size : Int)] })
    (types : List MachineType) (index : Nat) (h : P a) (hOpen : a.current = some b) :
    ∃ a', Runs (addParams index types) a () a' ∧ P a' := by
  induction types generalizing index a with
  | nil => exact ⟨a, rfl, h⟩
  | cons type types ih =>
    obtain ⟨a', hRuns, hAfter⟩ := ih (index + 1) (hStep a b index type h hOpen) hOpen
    refine ⟨a', ?_, hAfter⟩
    unfold addParams
    refine runs_bind.mpr ⟨_, _, emit_succeeds hOpen, ?_⟩
    exact runs_bind.mpr ⟨(), _, rfl, hRuns⟩

/-- What is true without parameters and is kept where one is placed is true of a new assembler. -/
theorem new_induct {P : Assembler → Prop} (hInitial : P initial)
    (hStep : ∀ a b index type, P a → a.current = some b →
      P { a.placed b (.parameter index type) with params := a.params ++ [(a.graph.size : Int)] })
    (params : List MachineType) : P (new params) := by
  obtain ⟨a', hRuns, hAfter⟩ := addParams_induct hStep params 0 hInitial (b := 0) rfl
  have hNew : new params = ((addParams 0 params).run.run initial).2 := rfl
  rw [hNew, show (addParams 0 params).run.run initial = _ from hRuns]
  exact hAfter

/-- A program starts with what is true of every program. -/
theorem new_sound (params : List MachineType) : Sound [] (new params) :=
  new_induct initial_sound (fun _ _ index type h hOpen => h.withParameter hOpen index type) params

theorem Assembled.sound (run : Assembled params past a) : Sound past a := by
  induction run with
  | new => exact new_sound params
  | perform _ hArguments hSucceeds ih => exact ih.step hArguments (perform_step hSucceeds)

/-! ## The end -/

/-- A graph and a schedule that are consistent with the program that built them. The block that was
created as the one with number `b` is at `position b` of the schedule. -/
structure WellBuilt (past : List Event) (position : Nat → Nat) (g : Graph) (s : Schedule) :
    Prop where
  verified : g.verify = .ok ()
  /-- Every block that was created is kept, at a position of its own. -/
  size : s.blocks.size = (created past).length
  position_lt : ∀ b < s.blocks.size, position b < s.blocks.size
  position_inj : ∀ b < s.blocks.size, ∀ c < s.blocks.size, position b = position c → b = c
  /-- A block is entered from the blocks that were current at the jumps to its label, in order. -/
  blocks : ∀ (b : Nat) (c : Created), (created past)[b]? = some c →
    s.headOf? (position b) = some c.head ∧ s.predecessors (position b) = c.arrivals.map position
  edges : s.Consistent
  /-- Every edge goes to a higher number. -/
  forward : s.Forward
  acyclic : ∀ b, ¬Relation.TransGen (fun x y => y ∈ s.successors x) b b
  sorted : ∀ b, (s.nodesOf b).Pairwise (· < ·)
  /-- What a value, memory or phi operation added is in the block that was current, and in no
  other. -/
  placed : ∀ e ∈ past, e.op.adds = true → e.result = some (e.before.graph.size : Int) ∧
    e.after.graph.size = e.before.graph.size + 1 ∧
    ∃ c, e.before.current = some c ∧
      ∀ b, (e.before.graph.size : Int) ∈ s.nodesOf b ↔ b = position c
  joined : Joined g s
  threaded : ∃ entry, Threaded g s entry

/-- Putting the blocks of a program into order and collecting its returns. -/
theorem Sound.wellBuilt {s : Schedule} {position : Nat → Nat} (h : Sound past a)
    (hRenumbered : Schedule.Renumbered position a.schedule s) (hForward : s.Forward) :
    WellBuilt past position (a.graph.setExit a.returns).1 s := by
  have h0 : 0 < a.schedule.blocks.size := by
    obtain ⟨_, hFirst, -⟩ := h.flow.unordered.first
    exact (Array.getElem?_eq_some_iff.mp hFirst).1
  have hPred : ∀ b, ∀ p ∈ a.schedule.predecessors b, p < a.schedule.blocks.size := by
    intro b p hp
    exact (h.flow.unordered.edges.consistent.lt_size hp).1
  have hLt : ∀ {b c}, (created past)[b]? = some c → b < a.schedule.blocks.size := by
    intro b c hc
    rw [h.flow.size]
    exact (List.getElem?_eq_some_iff.mp hc).1
  -- The exit is one more node, which is in no block.
  have hGraph := setExit_eq a.graph a.returns
  have hJoined : Joined (a.graph.setExit a.returns).1 a.schedule := by
    have hGrow := h.joined.grow h.grounded [.collect a.returns]
    rw [hGraph]
    exact ⟨hGrow.merges, hGrow.phis, hGrow.effectPhis⟩
  obtain ⟨entry, hEffects⟩ := h.effects
  have hThreaded : Threaded (a.graph.setExit a.returns).1 a.schedule entry := by
    rw [hGraph]
    refine hEffects.threaded.congr rfl fun c => ?_
    have hSame : SameBlock a.graph a.schedule (a.graph.append [.collect a.returns]) a.schedule c :=
      h.grounded.sameBlock rfl rfl rfl
    exact ⟨⟨hSame.predecessors, hSame.head, hSame.nodes⟩, hSame.accesses⟩
  refine { verified := h.grounded.verify, size := hRenumbered.size.trans h.flow.size,
           position_lt := ?_, position_inj := ?_, blocks := fun b c hc => ?_,
           edges := hRenumbered.consistent h.flow.unordered.edges.consistent,
           forward := hForward, acyclic := hForward.acyclic,
           sorted := (hRenumbered.laid h.laid).sorted, placed := fun e he hAdds => ?_,
           joined := hRenumbered.joined hJoined,
           threaded := hRenumbered.threaded hThreaded h0 hPred }
  · rw [hRenumbered.size]
    exact hRenumbered.lt
  · rw [hRenumbered.size]
    exact hRenumbered.injective
  · obtain ⟨hHead, hArrivals⟩ := h.flow.blocks b c hc
    rw [hRenumbered.heads b (hLt hc), hRenumbered.predecessors b (hLt hc), hArrivals]
    exact ⟨hHead, rfl⟩
  · obtain ⟨hResult, hSize, c, hOpen, hMem⟩ := h.held e he hAdds
    -- It was placed in the block that was current, which has found its position like any other.
    have hc := Schedule.lt_of_mem_nodesOf hMem
    refine ⟨hResult, hSize, c, hOpen, fun b => ⟨fun hb => ?_, ?_⟩⟩
    · obtain ⟨d, hd, rfl, hMem'⟩ := hRenumbered.exists_block hb
      rw [h.laid.once d c _ hMem' hMem]
    · rintro rfl
      rw [hRenumbered.nodes c hc]
      exact hMem

/-- The assembler after its returns were collected and its blocks put into order. -/
def finished (a : Assembler) (s : Schedule) : Assembler :=
  { a with
    graph := (a.graph.setExit a.returns).1
    schedule := s
    labels := fun name => (a.labels name).renumber a.schedule.postorder }

theorem runs_finish_eq (h : Runs finish a () a') :
    a.current = none ∧ ∃ s, a.schedule.ordered = .ok s ∧ a' = a.finished s := by
  unfold finish at h
  obtain ⟨_, _, hGet, h⟩ := runs_bind.mp h
  obtain ⟨rfl, rfl⟩ := runs_get.mp hGet
  cases hCurrent : a.current with
  | some b =>
    rw [hCurrent] at h
    obtain ⟨_, _, -, h⟩ := runs_bind.mp h
    obtain ⟨_, _, -, h⟩ := runs_bind.mp h
    -- an open block is an error
    obtain ⟨_, _, hThrow, -⟩ := runs_bind.mp h
    exact absurd hThrow not_runs_throw
  | none =>
    rw [hCurrent] at h
    obtain ⟨s, _, hLook, h⟩ := runs_bind.mp h
    obtain ⟨hOk, rfl⟩ := runs_lift hLook
    cases h
    refine ⟨rfl, s, hOk, eq_of_fields rfl rfl ?_ rfl rfl rfl rfl rfl⟩
    exact hCurrent.symm

/-- What finishing a program does: the returns are collected and the blocks put into order. -/
theorem runs_finish (h : Runs finish a () a') :
    a.current = none ∧ a.schedule.ordered = .ok a'.schedule ∧
      a'.graph = (a.graph.setExit a.returns).1 := by
  obtain ⟨hClosed, s, hOk, rfl⟩ := runs_finish_eq h
  exact ⟨hClosed, hOk, rfl⟩

theorem finish_succeeds {s : Schedule} (hClosed : a.current = none)
    (hOrdered : a.schedule.ordered = .ok s) : ∃ a', Runs finish a () a' := by
  have hLook : Runs (liftM a.schedule.ordered) a s a := by
    rw [hOrdered]
    rfl
  refine ⟨a.finished s, runs_bind.mpr ⟨a, a, runs_get.mpr ⟨rfl, rfl⟩, ?_⟩⟩
  unfold finished
  rw [hClosed]
  exact runs_bind.mpr ⟨s, a, hLook, rfl⟩

/-- A program can be finished when it has closed its last block, and then only. The finished graph
verifies, and its schedule is consistent with the program. -/
theorem assembled_wellBuilt (run : Assembled params past a) :
    ((∃ a', Runs finish a () a') ↔ a.current = none) ∧
      ∀ a', Runs finish a () a' → ∃ position, WellBuilt past position a'.graph a'.schedule := by
  have hSound := run.sound
  obtain ⟨s, hOrdered, hRenumbered, hForward⟩ := hSound.flow.forward.ordered hSound.flow.unordered
    hSound.flow.entered
  refine ⟨⟨?_, fun hClosed => finish_succeeds hClosed hOrdered⟩, fun a' h => ?_⟩
  · rintro ⟨a', h⟩
    exact (runs_finish h).1
  · obtain ⟨-, hOk, hGraph⟩ := runs_finish h
    obtain rfl : s = a'.schedule := Except.ok.inj (hOrdered.symm.trans hOk)
    rw [hGraph]
    exact ⟨_, hSound.wellBuilt hRenumbered hForward⟩

/-- A program that stores on one way of a branch only. Where the ways meet it joins two values, and
the effect that the store leaves with the one it began with. -/
def meeting : List Operation :=
  [.param 0, .param 1, .literal (.int32 7), .branch 2 "then" "else",
    .bind "then", .store .word32 .none 1 3 2, .goto "end",
    .bind "else", .goto "end",
    .bind "end", .phi .word32 [3, 2], .load .word32 1 10, .ret 11]

theorem assembled_wellBuilt_meeting : ∃ past a,
    execute [.tagged, .int32] meeting = some (past, a) ∧
      Assembled [.tagged, .int32] past a ∧ (∃ a', Runs finish a () a') ∧
      ∀ a', Runs finish a () a' → ∃ position, WellBuilt past position a'.graph a'.schedule := by
  have hRuns : ((execute [.tagged, .int32] meeting).map (·.2.current)) = some none := by
    decide +kernel
  obtain ⟨⟨past, a⟩, hExecute, hClosed⟩ := Option.map_eq_some_iff.mp hRuns
  have run := execute_assembled hExecute
  obtain ⟨hFinish, hAll⟩ := assembled_wellBuilt run
  exact ⟨past, a, hExecute, run, hFinish.mpr hClosed, hAll⟩

end Assembler
end ArmBackend
