import ArmBackend.Proofs.Evaluation.Remembered
import ArmBackend.Proofs.Schedule.Flow

/-!
# The path of a run

The evaluation of a graph asks backwards, from the returns, which control nodes are reached; the
schedule lists the blocks of the same graph and leads forwards from one to the next. The two agree: a
run that gives a value has reached the blocks of one path from the first block to a return, and no
others, also if it is asked about them later.

A block whose head is reached was entered from a block whose head is reached, along the edge that is
taken there (`entered_from`); since ranks go down on the way back it ends at the first block.
And if no return were reached, no block would be, as the ends of a block that is reached cannot all
be missed (`missed`); but the first block always is.

## Results

* `missed` — where no return is reached no block is.
* `exists_path` — a block that is reached lies at the end of a path that is taken.
* `run_follows_path` — a run follows one path of the schedule, and a return is always reached.
-/

namespace ArmBackend

namespace Schedule

variable {g : Graph} {c control head : NodeId} {n : Node}

/-! ## Control chains -/

/-- The chain from a node that starts no block goes on at its control input. -/
theorem controlHead_of_controlIn (hn : g.node? c = some n) (hOp : n.op.isHead = false)
    (hControl : g.controlIn c = .ok control) (hChain : g.ControlHead c head) :
    g.ControlHead control head := by
  obtain ⟨hSteps, hHead⟩ := hChain
  rcases Relation.ReflTransGen.cases_head hSteps with rfl | ⟨u, hStep, hRest⟩
  · obtain ⟨m, hm, hIs⟩ := hHead
    obtain rfl : n = m := Option.some.inj (hn.symm.trans hm)
    rw [hOp] at hIs
    cases hIs
  · obtain ⟨m, hm, -, -, hu⟩ := hStep
    obtain ⟨k, hk, hControl⟩ := Machine.controlIn_eq_ok hControl
    obtain rfl : m = k := Option.some.inj (hm.symm.trans hk)
    obtain rfl := Except.ok.inj (hu.symm.trans hControl)
    exact ⟨hRest, hHead⟩

end Schedule

namespace Machine

open Schedule

variable {g : Graph} {exit id w u x head : NodeId} {s : Schedule} {t t' : State} {v : Bool}
  {b i j : Nat} {block : Block} {n : Node} {rank : NodeId → Nat}

/-! ## Reading answers -/

theorem Remembered.climb (h : Remembered g t) (hChain : g.ControlHead x head)
    (hx : t.reached x = some v) : t.reached head = some v := by
  obtain ⟨hSteps, -⟩ := hChain
  induction hSteps with
  | refl => exact hx
  | @tail w u _ hStep ih =>
    obtain ⟨n, hn, hHead, -, hu⟩ := hStep
    -- Of all the ways to decide, only the last is about a node that starts no block.
    cases h w v ih with
    | start hOp =>
      obtain ⟨m, hm, hOp⟩ := hOp
      obtain rfl : n = m := Option.some.inj (hn.symm.trans hm)
      rw [hOp] at hHead
      cases hHead
    | merge hm hOp | unmerged hm hOp =>
      obtain rfl := Option.some.inj (hn.symm.trans hm)
      rw [hOp] at hHead
      cases hHead
    | arm hm hOp | unbranched hm hOp =>
      obtain rfl := Option.some.inj (hn.symm.trans hm)
      rcases hOp with hOp | hOp <;> rw [hOp] at hHead <;> cases hHead
    | passes hm _ hControl hReached =>
      obtain rfl := Option.some.inj (hn.symm.trans hm)
      obtain rfl := Except.ok.inj (hu.symm.trans hControl)
      exact hReached

/-- A merge is reached if one of its inputs is. -/
theorem Remembered.merge (h : Remembered g t) (hn : g.node? id = some n) (hOp : n.op = .merge)
    (hId : t.reached id = some v) :
    if v then ∃ x ∈ n.inputs, t.reached x = some true
    else ∀ x ∈ n.inputs, t.reached x = some false := by
  -- only two of the rules speak of a merge
  cases h id v hId with
  | start hIs => exact absurd (hIs.unique ⟨n, hn, hOp⟩) (by decide)
  | merge hm _ hx hReached =>
    obtain rfl := Option.some.inj (hn.symm.trans hm)
    exact ⟨_, hx, hReached⟩
  | unmerged hm _ hAll =>
    obtain rfl := Option.some.inj (hn.symm.trans hm)
    exact hAll
  | arm hm hIs | unbranched hm hIs =>
    obtain rfl := Option.some.inj (hn.symm.trans hm)
    rw [hOp] at hIs
    rcases hIs with hIs | hIs <;> cases hIs
  | passes hm hHead =>
    obtain rfl := Option.some.inj (hn.symm.trans hm)
    rw [hOp] at hHead
    cases hHead

/-- What an arm of a branch tells: the branch is not reached, or the arm is if the condition is
right. -/
theorem Remembered.arm {c : NodeId} (h : Remembered g t) (hWell : g.WellFormed)
    (hn : g.node? id = some n) (hOp : n.op = .ifTrue ∨ n.op = .ifFalse) (hc : c ∈ n.inputs)
    (hId : t.reached id = some v) :
    ∃ control, g.controlIn c = .ok control ∧
      ((v = false ∧ t.reached control = some false) ∨
        (t.reached control = some true ∧ ∃ x a, g.valueIn c 0 = .ok x ∧ t.values x = some a ∧
          v = ((a != 0) == (n.op == .ifTrue)))) := by
  -- What is remembered of an arm was found as an arm is.
  cases h id v hId with
  | start hIs =>
    obtain ⟨m, hm, hIs⟩ := hIs
    obtain rfl : n = m := Option.some.inj (hn.symm.trans hm)
    rw [hIs] at hOp
    rcases hOp with hOp | hOp <;> cases hOp
  | merge hm hIs | unmerged hm hIs =>
    obtain rfl := Option.some.inj (hn.symm.trans hm)
    rw [hIs] at hOp
    rcases hOp with hOp | hOp <;> cases hOp
  | arm hm _ hBranch hControl hReached hCondition hv =>
    obtain rfl := Option.some.inj (hn.symm.trans hm)
    obtain rfl := input_of_arm hWell hn hOp hc (Node.mem_inputs hBranch)
    exact ⟨_, hControl, .inr ⟨hReached, _, _, hCondition, hv, rfl⟩⟩
  | unbranched hm _ hBranch hControl hReached =>
    obtain rfl := Option.some.inj (hn.symm.trans hm)
    obtain rfl := input_of_arm hWell hn hOp hc (Node.mem_inputs hBranch)
    exact ⟨_, hControl, .inl ⟨rfl, hReached⟩⟩
  | passes hm hHead =>
    obtain rfl := Option.some.inj (hn.symm.trans hm)
    rcases hOp with hOp | hOp <;> rw [hOp] at hHead <;> cases hHead

/-! ## Edges that are taken -/

/-- Whether control goes from one block to another: along its only edge if it jumps, and where it
branches along the first edge if the condition is not zero and else along the second. -/
inductive Takes (g : Graph) (s : Schedule) (t : State) (b i : Nat) : Prop
  | jump {block : Block} (hBlock : s.blocks[b]? = some block) (hKind : block.kind = .goto)
      (hSucc : block.succ = [i])
  | branch {block : Block} {c x : NodeId} {a : BitVec 64} {y z : Nat}
      (hBlock : s.blocks[b]? = some block) (hKind : block.kind = .branch)
      (hControl : block.control = some c) (hCondition : g.valueIn c 0 = .ok x)
      (ha : t.values x = some a) (hSucc : block.succ = [y, z]) (hi : i = if a ≠ 0 then y else z)

theorem Takes.mono (h : Takes g s t b i) (ht : Recalled t t') : Takes g s t' b i := by
  cases h with
  | jump hBlock hKind hSucc => exact .jump hBlock hKind hSucc
  | branch hBlock hKind hControl hCondition ha hSucc hi =>
    exact .branch hBlock hKind hControl hCondition (ht.values ha) hSucc hi

/-- Control goes to one block only. -/
theorem Takes.unique (h : Takes g s t b i) (h' : Takes g s t b j) : i = j := by
  cases h with
  -- both steps leave the same block, so they are of the same kind
  | jump hBlock hKind hSucc =>
    cases h' with
    | jump hOther _ hSucc' =>
      obtain rfl := Option.some.inj (hBlock.symm.trans hOther)
      simpa using hSucc.symm.trans hSucc'
    | branch hOther hKind' =>
      obtain rfl := Option.some.inj (hBlock.symm.trans hOther)
      rw [hKind] at hKind'
      cases hKind'
  | branch hBlock hKind hControl hCondition ha hSucc hi =>
    cases h' with
    | jump hOther hKind' =>
      obtain rfl := Option.some.inj (hBlock.symm.trans hOther)
      rw [hKind] at hKind'
      cases hKind'
    | branch hOther _ hControl' hCondition' ha' hSucc' hj =>
      obtain rfl := Option.some.inj (hBlock.symm.trans hOther)
      obtain rfl := Option.some.inj (hControl.symm.trans hControl')
      obtain rfl := Except.ok.inj (hCondition.symm.trans hCondition')
      obtain rfl := Option.some.inj (ha.symm.trans ha')
      -- the same condition was read, and the arms are the same two blocks
      obtain ⟨rfl, rfl⟩ : _ = _ ∧ _ = _ := by simpa using hSucc.symm.trans hSucc'
      rw [hi, hj]

/-- Control goes along an edge. -/
theorem Takes.mem_succ (h : Takes g s t b i) :
    ∃ block, s.blocks[b]? = some block ∧ block.kind ≠ .ret ∧ i ∈ block.succ := by
  cases h with
  | jump hBlock hKind hSucc => exact ⟨_, hBlock, by rw [hKind]; decide, by rw [hSucc]; simp⟩
  | branch hBlock hKind _ _ _ hSucc hi =>
    refine ⟨_, hBlock, by rw [hKind]; decide, ?_⟩
    rw [hSucc, hi]
    split <;> simp

/-- Ranks go down along a control chain. -/
theorem Ranked.controlHead_le (hRanked : Ranked g exit rank) (hWell : g.WellFormed)
    (hLive : g.Live exit x) (hChain : g.ControlHead x head) : rank head ≤ rank x := by
  obtain ⟨hSteps, -⟩ := hChain
  have hAll : g.Live exit head ∧ rank head ≤ rank x := by
    induction hSteps with
    | refl => exact ⟨hLive, Nat.le_refl _⟩
    | tail _ hStep ih =>
      have hInput := hStep.hasInput hWell
      exact ⟨ih.1.input hInput, (hRanked.lt ih.1 hInput).le.trans ih.2⟩
  exact hAll.2

section

variable (hFlow : Flow g exit s) (hWell : g.WellFormed) (hStart : g.HasOp Graph.start .start)
  (hRanked : Ranked g exit rank)

include hFlow hWell hStart hRanked

/-- Ranks go up along the edges of the blocks. -/
theorem rank_lt_of_edge {next : Block} (hBlock : s.blocks[b]? = some block)
    (hNext : s.blocks[i]? = some next) (hEdge : i ∈ block.succ) :
    rank block.head < rank next.head := by
  obtain ⟨-, same, x, hSame, hInput, hChain⟩ := hFlow.edge hStart hBlock hEdge
  obtain rfl := Option.some.inj (hNext.symm.trans hSame)
  have hLive := hFlow.head_live hWell hStart hNext
  exact Nat.lt_of_le_of_lt (hRanked.controlHead_le hWell (hLive.input hInput) hChain)
    (hRanked.lt hLive hInput)

omit hRanked in
/-- A block that is reached is entered from one that is reached, along the edge that is taken. -/
theorem entered_from (ht : Remembered g t) (hBlock : s.blocks[i]? = some block) (hi : i ≠ 0)
    (hReached : t.reached block.head = some true) :
    ∃ (b : Nat) (before : Block), s.blocks[b]? = some before ∧
      t.reached before.head = some true ∧ Takes g s t b i := by
  obtain ⟨b, before, hBefore, hEdge⟩ := hFlow.entered hBlock hi
  cases hFlow.leaves hBefore with
  | goto j _ _ hSucc hJoins =>
    -- Any block that jumps to a merge leads to it, not only the one whose input is reached.
    rw [hSucc, List.mem_singleton] at hEdge
    subst hEdge
    obtain ⟨m, n, -, hAt, hn, hOp, -⟩ := hJoins
    rw [heads_getElem?, hBlock] at hAt
    obtain rfl := Option.some.inj hAt
    obtain ⟨x, hx, hTrue⟩ := ht.merge hn hOp hReached
    obtain ⟨a, from', hFrom, hChain, hKind, j, hSucc', hTarget⟩ :=
      (hFlow.merged (hFlow.head_live hWell hStart hBlock) hn hOp).1 x hx
    rw [heads_getElem?] at hTarget
    obtain ⟨other, hOther, hSame⟩ := Option.map_eq_some_iff.mp hTarget
    obtain rfl := hFlow.distinct hBlock hOther hSame.symm
    exact ⟨a, from', hFrom, ht.climb hChain hTrue, .jump hFrom hKind hSucc'⟩
  | branch c y z hKind hControl hBranch hSucc hTrue hFalse =>
    rw [hSucc] at hEdge
    obtain ⟨k, hk, hOpBranch⟩ := hBranch
    have hChain := (hFlow.control hBefore hControl).2
    -- The condition has the sense of the arm, so the edge to it is the one that is taken.
    have hArm : ∀ {n : Node}, g.node? block.head = some n → c ∈ n.inputs →
        (n.op = .ifTrue ∧ i = y) ∨ (n.op = .ifFalse ∧ i = z) →
        t.reached before.head = some true ∧ Takes g s t b i := by
      intro n hn hc hCase
      have hOp : n.op = .ifTrue ∨ n.op = .ifFalse := hCase.imp And.left And.left
      obtain ⟨control, hControlIn, ⟨hNot, -⟩ | ⟨hIs, x, a, hCondition, ha, hSense⟩⟩ :=
        ht.arm hWell hn hOp hc hReached
      · cases hNot
      · have hUp := controlHead_of_controlIn hk (by rw [hOpBranch]; rfl) hControlIn hChain
        refine ⟨ht.climb hUp hIs, .branch hBefore hKind hControl hCondition ha hSucc ?_⟩
        rcases hCase with ⟨hOp, rfl⟩ | ⟨hOp, rfl⟩
        · rw [hOp] at hSense
          have hNonzero : a ≠ 0 := by simpa using hSense
          rw [if_pos hNonzero]
        · rw [hOp] at hSense
          have hZero : a = 0 := by
            simpa [show (Operator.ifFalse == Operator.ifTrue) = false from rfl] using hSense
          rw [if_neg (not_not.mpr hZero)]
    obtain rfl | rfl : i = y ∨ i = z := by simpa using hEdge
    · obtain ⟨same, n, hSame, hn, hOp, hc⟩ := hTrue
      obtain rfl := Option.some.inj (hBlock.symm.trans hSame)
      exact ⟨b, before, hBefore, hArm hn hc (.inl ⟨hOp, rfl⟩)⟩
    · obtain ⟨same, n, hSame, hn, hOp, hc⟩ := hFalse
      obtain rfl := Option.some.inj (hBlock.symm.trans hSame)
      exact ⟨b, before, hBefore, hArm hn hc (.inr ⟨hOp, rfl⟩)⟩
  | ret c _ _ _ hSucc =>
    rw [hSucc] at hEdge
    cases hEdge

end

/-- On a path control goes on from every block but the last. -/
theorem takes_of_mem {path : List Nat} (hChain : path.IsChain (Takes g s t))
    (hLast : path.getLast? = some i) (hb : b ∈ path) : b = i ∨ ∃ j ∈ path, Takes g s t b j := by
  induction path with
  | nil => cases hb
  | cons a rest ih =>
    cases rest with
    | nil =>
      obtain rfl := List.mem_singleton.mp hb
      exact .inl (Option.some.inj hLast)
    | cons c rest =>
      obtain ⟨hTakes, hRest⟩ := List.isChain_cons_cons.mp hChain
      rcases List.mem_cons.mp hb with rfl | hb
      · exact .inr ⟨c, by simp, hTakes⟩
      · rw [List.getLast?_cons_cons] at hLast
        exact (ih hRest hLast hb).imp_right fun ⟨j, hj, hTakes⟩ =>
          ⟨j, List.mem_cons_of_mem _ hj, hTakes⟩

/-! ## A whole path -/

/-- The path that was taken up to a return, with the blocks that were reached on it. -/
structure Route (g : Graph) (s : Schedule) (t : State) (path : List Nat) : Prop where
  first : path.head? = some 0
  chain : path.IsChain (Takes g s t)
  last : ∃ (e : Nat) (block : Block), path.getLast? = some e ∧ s.blocks[e]? = some block ∧
    block.kind = .ret
  reached : ∀ b ∈ path, ∃ block, s.blocks[b]? = some block ∧ t.reached block.head = some true

namespace Route

variable {path : List Nat}

/-- Only the last block of a path returns. -/
theorem unique_ret (h : Route g s t path) {c : Nat} {other : Block} (hb : b ∈ path) (hc : c ∈ path)
    (hBlock : s.blocks[b]? = some block) (hOther : s.blocks[c]? = some other)
    (hKind : block.kind = .ret) (hKind' : other.kind = .ret) : b = c := by
  obtain ⟨e, -, hLast, -, -⟩ := h.last
  have hEnd : ∀ {a : Nat} {block : Block}, a ∈ path → s.blocks[a]? = some block →
      block.kind = .ret → a = e := by
    intro a block ha hAt hRet
    refine (takes_of_mem h.chain hLast ha).resolve_right ?_
    rintro ⟨j, -, hTakes⟩
    obtain ⟨same, hSame, hNot, -⟩ := hTakes.mem_succ
    obtain rfl := Option.some.inj (hAt.symm.trans hSame)
    exact hNot hRet
  rw [hEnd hb hBlock hKind, hEnd hc hOther hKind']

section

variable (h : Route g s t path) (hFlow : Flow g exit s) (hWell : g.WellFormed)
  (hStart : g.HasOp Graph.start .start) (hRanked : Ranked g exit rank) (ht' : Remembered g t')
  (hRecalled : Recalled t t')

include h hFlow hWell hStart hRanked ht' hRecalled

/-- Whatever block turns out to be reached lies on the path. -/
theorem mem (hBlock : s.blocks[i]? = some block) (hReached : t'.reached block.head = some true) :
    i ∈ path := by
  induction hk : rank block.head using Nat.strong_induction_on generalizing i block with
  | _ k ih =>
    by_cases hi : i = 0
    · exact List.mem_of_mem_head? (hi ▸ h.first)
    · obtain ⟨b, before, hBefore, hTrue, hTakes⟩ :=
        entered_from hFlow hWell hStart ht' hBlock hi hReached
      obtain ⟨same, hSame, hKind, hEdge⟩ := hTakes.mem_succ
      obtain rfl := Option.some.inj (hBefore.symm.trans hSame)
      have hLt := rank_lt_of_edge hFlow hWell hStart hRanked hBefore hBlock hEdge
      have hb : b ∈ path := ih _ (by omega) hBefore hTrue rfl
      -- Control goes on along the path, and it goes to one block only.
      obtain ⟨e, last, hLast, hEnd, hRet⟩ := h.last
      rcases takes_of_mem h.chain hLast hb with rfl | ⟨j, hj, hNext⟩
      · obtain rfl := Option.some.inj (hBefore.symm.trans hEnd)
        exact absurd hRet hKind
      · rw [hTakes.unique (hNext.mono hRecalled)]
        exact hj

omit ht' hRecalled in
/-- A block on the path is entered from one block of the path only. -/
theorem unique_pred {c : Nat} (hb : b ∈ path) (hc : c ∈ path) (hTakes : Takes g s t b i)
    (hTakes' : Takes g s t c i) : b = c := by
  let level : Nat → Nat := fun b => rank ((s.heads[b]?).getD 0)
  have hLevel : ∀ {b i}, Takes g s t b i → level b < level i := by
    intro b i hTakes
    obtain ⟨block, hBlock, -, hEdge⟩ := hTakes.mem_succ
    obtain ⟨-, next, -, hNext, -⟩ := hFlow.edge hStart hBlock hEdge
    have hLt := rank_lt_of_edge hFlow hWell hStart hRanked hBlock hNext hEdge
    simpa [level, heads_getElem?, hBlock, hNext] using hLt
  have hLater : ∀ {b i}, Relation.ReflTransGen (Takes g s t) b i → level b ≤ level i := by
    intro b i hSteps
    induction hSteps with
    | refl => exact Nat.le_refl _
    | tail _ hStep ih => exact ih.trans (hLevel hStep).le
  -- Of two blocks of a path one comes first, and the next block after it is the one it leads to.
  have hOrdered : path.Pairwise fun a b =>
      Relation.TransGen (Takes g s t) a b ∨ Relation.TransGen (Takes g s t) b a := by
    have hTrans : path.IsChain (Relation.TransGen (Takes g s t)) :=
      h.chain.imp fun _ _ => .single
    exact (List.isChain_iff_pairwise.mp hTrans).imp .inl
  have hClash : ∀ {a d}, Takes g s t a i → Takes g s t d i →
      ¬Relation.TransGen (Takes g s t) a d := by
    intro a d ha hd hSteps
    obtain ⟨j, hj, hRest⟩ := Relation.TransGen.head'_iff.mp hSteps
    obtain rfl := hj.unique ha
    exact absurd (hLater hRest) (Nat.not_le.mpr (hLevel hd))
  by_contra hNe
  have hSymm : Std.Symm fun a b =>
      Relation.TransGen (Takes g s t) a b ∨ Relation.TransGen (Takes g s t) b a :=
    ⟨fun _ _ => Or.symm⟩
  rcases hOrdered.forall hb hc hNe with hSteps | hSteps
  · exact hClash hTakes hTakes' hSteps
  · exact hClash hTakes' hTakes hSteps

end
end Route

/-! ## Asking later -/

/-- The node that a question is about. -/
def Query.node {α : Type} : Query α → NodeId
  | .reached id | .effect id | .value id => id

/-- One more question about a live node is answered. -/
def Asked (env : Env) (root : NodeId) (t t' : State) : Prop :=
  ∃ (α : Type) (q : Query α) (a : α), env.graph.Live root q.node ∧
    Runs (answer env (depthFor env.graph) q) t a t'

/-- Whether, whenever it is asked from `t` on if a node is reached, the answer is what `p` says. -/
def Tells (env : Env) (root : NodeId) (t : State) (id : NodeId) (p : Prop) : Prop :=
  ∀ t', Relation.ReflTransGen (Asked env root) t t' →
    Gives (answer env (depthFor env.graph) (.reached id)) t' fun v _ => (v = true ↔ p)

/-- Whether a run that ended in `t` followed a path of a schedule: the blocks on it are those whose
heads are reached, one return is reached, and each merge on it from one input, which is the one that
joins take. -/
structure Follows (env : Env) (exit : NodeId) (s : Schedule) (t : State) (path : List Nat) : Prop
    extends Route env.graph s t path where
  -- the blocks on the path, and no others, are reached
  blocks : ∀ {i : Nat} {block : Block}, s.blocks[i]? = some block →
    Tells env exit t block.head (i ∈ path)
  returns : ∀ {n}, env.graph.node? exit = some n → ∃ id ∈ n.inputs, env.graph.HasOp id .ret ∧
    t.reached id = some true ∧
    ∀ x ∈ n.inputs, env.graph.HasOp x .ret → Tells env exit t x (x = id)
  -- a merge on the path is entered through one input, whichever answer is asked for first
  merges : ∀ {i : Nat} {block : Block} {n : Node}, i ∈ path → s.blocks[i]? = some block →
    env.graph.node? block.head = some n → n.op = .merge →
    ∃ k x, n.inputs[k]? = some x ∧ t.reached x = some true ∧
      (∀ j y, n.inputs[j]? = some y → Tells env exit t y (j = k)) ∧
      ∀ t', Relation.ReflTransGen (Asked env exit) t t' →
        Gives (takenInput env (answer env (depthFor env.graph)) block.head) t' fun j _ => j = k

section

variable {env : Env} (hRanked : Ranked env.graph exit rank)
  (hRank : ∀ id, env.graph.Live exit id → rank id < env.graph.size)

include hRanked hRank

theorem truthful_at (hLive : env.graph.Live exit id) :
    Truthful env.graph exit rank (answer env (depthFor env.graph)) (depthFor env.graph) ∧
      Below env.graph exit rank env.graph.size id ∧ 2 * env.graph.size + 1 ≤ depthFor env.graph :=
  ⟨answer_truthful hRanked _, .inr ⟨hLive, hRank id hLive⟩, le_depthFor env.graph⟩

theorem Asked.remembered (h : Asked env exit t t') (ht : Remembered env.graph t) :
    Remembered env.graph t' ∧ Recalled t t' := by
  obtain ⟨α, q, a, hLive, hRuns⟩ := h
  obtain ⟨hTruthful, hBelow, hDepth⟩ := truthful_at hRanked hRank hLive
  cases q with
  | reached id =>
    obtain ⟨ht', hWithin, -⟩ := (hTruthful.reached hBelow (by omega) (by omega) ht).of_runs hRuns
    exact ⟨ht', hWithin.recalled⟩
  | effect id =>
    obtain ⟨ht', hWithin⟩ := (hTruthful.effect hBelow hDepth t ht).of_runs hRuns
    exact ⟨ht', hWithin.recalled⟩
  | value id =>
    obtain ⟨ht', hWithin, -⟩ := (hTruthful.value hBelow (by omega) (by omega) ht).of_runs hRuns
    exact ⟨ht', hWithin.recalled⟩

theorem remembered_later (h : Relation.ReflTransGen (Asked env exit) t t')
    (ht : Remembered env.graph t) : Remembered env.graph t' ∧ Recalled t t' := by
  induction h with
  | refl => exact ⟨ht, .refl t⟩
  | tail _ hStep ih =>
    obtain ⟨ht', hRecalled⟩ := ih
    obtain ⟨ht'', hRecalled'⟩ := hStep.remembered hRanked hRank ht'
    exact ⟨ht'', hRecalled.trans hRecalled'⟩

/-- What answers are remembered tells what is answered. -/
theorem tells_of {p : Prop} (ht : Remembered env.graph t) (hLive : env.graph.Live exit id)
    (h : ∀ t' v, Remembered env.graph t' → Recalled t t' → t'.reached id = some v →
      (v = true ↔ p)) : Tells env exit t id p := by
  intro t' hLater
  obtain ⟨ht', hRecalled⟩ := remembered_later hRanked hRank hLater ht
  obtain ⟨hTruthful, hBelow, hDepth⟩ := truthful_at hRanked hRank hLive
  refine (hTruthful.reached hBelow (by omega) (by omega) ht').mono ?_
  rintro v t'' ⟨ht'', hWithin, hReached⟩
  exact h t'' v ht'' (hRecalled.trans hWithin.recalled) hReached

end

/-- A block that a return ends. -/
theorem kind_of_ret (hFlow : Flow g exit s) (hBlock : s.blocks[b]? = some block)
    (hControl : block.control = some id) (hOp : g.HasOp id .ret) : block.kind = .ret := by
  cases hFlow.leaves hBlock with
  | goto _ _ hNone =>
    rw [hControl] at hNone
    cases hNone
  | branch c _ _ _ hSame hBranch =>
    obtain rfl := Option.some.inj (hControl.symm.trans hSame)
    exact absurd (hOp.unique hBranch) (by decide)
  | ret _ hKind => exact hKind

theorem Remembered.start (h : Remembered g t) (hStart : g.HasOp id .start)
    (hId : t.reached id = some v) : v = true := by
  obtain ⟨n, hn, hOp⟩ := hStart
  cases h id v hId with
  | start | merge => rfl
  | unmerged hm hIs =>
    obtain rfl := Option.some.inj (hn.symm.trans hm)
    rw [hOp] at hIs
    cases hIs
  | arm hm hIs | unbranched hm hIs =>
    obtain rfl := Option.some.inj (hn.symm.trans hm)
    rw [hOp] at hIs
    rcases hIs with hIs | hIs <;> cases hIs
  | passes hm hHead =>
    obtain rfl := Option.some.inj (hn.symm.trans hm)
    rw [hOp] at hHead
    cases hHead

section

variable {env : Env} {path : List Nat} (h : Route env.graph s t path)
  (hFlow : Flow env.graph exit s) (hWell : env.graph.WellFormed)
  (hStart : env.graph.HasOp Graph.start .start) (hRanked : Ranked env.graph exit rank)
  (ht : Remembered env.graph t)

include h hFlow hWell hStart hRanked

/-- The block that a return ends lies on the path if the return is reached. -/
theorem Route.mem_of_ret (ht' : Remembered env.graph t') (hRecalled : Recalled t t')
    (hLive : env.graph.Live exit id) (hOp : env.graph.HasOp id .ret)
    (hReached : t'.reached id = some true) :
    ∃ (b : Nat) (block : Block), b ∈ path ∧ s.blocks[b]? = some block ∧
      block.control = some id ∧ block.kind = .ret := by
  obtain ⟨n, hn, hIs⟩ := hOp
  obtain ⟨b, block, hBlock, hControl⟩ := hFlow.ends hLive ⟨n, hn, .inr hIs⟩
  have hHead := ht'.climb (hFlow.control hBlock hControl).2 hReached
  exact ⟨b, block, h.mem hFlow hWell hStart hRanked ht' hRecalled hBlock hHead, hBlock, hControl,
    kind_of_ret hFlow hBlock hControl ⟨n, hn, hIs⟩⟩

/-- A merge is reached from one of its inputs only. -/
theorem Route.unique_input (hLive : env.graph.Live exit block.head)
    (hBlock : s.blocks[i]? = some block) (hn : env.graph.node? block.head = some n)
    (hOp : n.op = .merge) (ht' : Remembered env.graph t') (hRecalled : Recalled t t') {j k : Nat}
    {y z : NodeId} (hj : n.inputs[j]? = some y) (hk : n.inputs[k]? = some z)
    (hy : t'.reached y = some true) (hz : t'.reached z = some true) : j = k := by
  obtain ⟨hMerged, hApart⟩ := hFlow.merged hLive hn hOp
  -- Each input comes from a block of the path that jumps to the merge, so it is the same block.
  have hFrom : ∀ {x : NodeId}, x ∈ n.inputs → t'.reached x = some true →
      ∃ (b : Nat) (before : Block), b ∈ path ∧ s.blocks[b]? = some before ∧
        env.graph.ControlHead x before.head ∧ Takes env.graph s t b i := by
    intro x hx hReached
    obtain ⟨b, before, hBefore, hChain, hKind, a, hSucc, hTarget⟩ := hMerged x hx
    rw [heads_getElem?] at hTarget
    obtain ⟨other, hOther, hSame⟩ := Option.map_eq_some_iff.mp hTarget
    obtain rfl := hFlow.distinct hBlock hOther hSame.symm
    have hb := h.mem hFlow hWell hStart hRanked ht' hRecalled hBefore (ht'.climb hChain hReached)
    exact ⟨b, before, hb, hBefore, hChain, .jump hBefore hKind hSucc⟩
  obtain ⟨b, before, hb, hBefore, hChain, hTakes⟩ := hFrom (List.mem_of_getElem? hj) hy
  obtain ⟨c, other, hc, hOther, hChain', hTakes'⟩ := hFrom (List.mem_of_getElem? hk) hz
  obtain rfl := h.unique_pred hFlow hWell hStart hRanked hb hc hTakes hTakes'
  obtain rfl := Option.some.inj (hBefore.symm.trans hOther)
  obtain ⟨hjLt, rfl⟩ := List.getElem?_eq_some_iff.mp hj
  obtain ⟨hkLt, rfl⟩ := List.getElem?_eq_some_iff.mp hk
  rcases Nat.lt_trichotomy j k with hLt | hEq | hLt
  · exact absurd hChain' (List.pairwise_iff_getElem.mp hApart j k hjLt hkLt hLt _ hChain)
  · exact hEq
  · exact absurd hChain (List.pairwise_iff_getElem.mp hApart k j hkLt hjLt hLt _ hChain')

include ht

/-- What the path tells about later answers. -/
theorem Route.follows (hRank : ∀ id, env.graph.Live exit id → rank id < env.graph.size)
    {returns : List NodeId} (hReturns : ∀ {n}, env.graph.node? exit = some n → returns = n.inputs)
    {a : BitVec 64} (hReturned : Returned env.graph returns a t) : Follows env exit s t path where
  toRoute := h
  blocks {i block} hBlock := by
    refine tells_of hRanked hRank ht (hFlow.head_live hWell hStart hBlock) ?_
    intro t' v ht' hRecalled hReached
    -- A block whose head is reached is on the path, and the other way round.
    constructor
    · rintro rfl
      exact h.mem hFlow hWell hStart hRanked ht' hRecalled hBlock hReached
    · intro hi
      obtain ⟨same, hSame, hTrue⟩ := h.reached i hi
      obtain rfl := Option.some.inj (hBlock.symm.trans hSame)
      exact Option.some.inj (hReached.symm.trans (hRecalled.reached hTrue))
  -- Two returns that are reached end the same path, so they are one.
  returns {n} hn := by
    obtain ⟨id, hId, hOp, hTrue, -⟩ := hReturned
    rw [hReturns hn] at hId
    have hLive : ∀ x ∈ n.inputs, env.graph.Live exit x := fun x hx => .tail .refl ⟨n, hn, hx⟩
    refine ⟨id, hId, hOp, hTrue, fun x hx hRet => tells_of hRanked hRank ht (hLive x hx) ?_⟩
    intro t' v ht' hRecalled hReached
    constructor
    · rintro rfl
      obtain ⟨b, block, hb, hBlock, hControl, hKind⟩ :=
        h.mem_of_ret hFlow hWell hStart hRanked ht' hRecalled (hLive x hx) hRet hReached
      obtain ⟨c, other, hc, hOther, hControl', hKind'⟩ :=
        h.mem_of_ret hFlow hWell hStart hRanked ht (.refl t) (hLive id hId) hOp hTrue
      obtain rfl := h.unique_ret hb hc hBlock hOther hKind hKind'
      obtain rfl := Option.some.inj (hBlock.symm.trans hOther)
      exact Option.some.inj (hControl.symm.trans hControl')
    · rintro rfl
      exact Option.some.inj (hReached.symm.trans (hRecalled.reached hTrue))
  -- A merge on the path has one input that is reached, the one the path came from.
  merges {i block n} hi hBlock hn hOp := by
    have hLive := hFlow.head_live hWell hStart hBlock
    obtain ⟨same, hSame, hHead⟩ := h.reached i hi
    obtain rfl := Option.some.inj (hBlock.symm.trans hSame)
    obtain ⟨x, hx, hTrue⟩ := ht.merge hn hOp hHead
    obtain ⟨k, hk⟩ := List.mem_iff_getElem?.mp hx
    have hUnique : ∀ {t' : State} {j : Nat} {y : NodeId}, Remembered env.graph t' → Recalled t t' →
        n.inputs[j]? = some y → t'.reached y = some true → j = k := fun ht' hRecalled hj hy =>
      h.unique_input hFlow hWell hStart hRanked hLive hBlock hn hOp ht' hRecalled hj hk hy
        (hRecalled.reached hTrue)
    refine ⟨k, x, hk, hTrue, fun j y hj => ?_, fun t' hLater => ?_⟩
    · have hy : env.graph.Live exit y := hLive.input ⟨n, hn, List.mem_of_getElem? hj⟩
      refine tells_of hRanked hRank ht hy fun t' v ht' hRecalled hReached => ⟨?_, ?_⟩
      · rintro rfl
        exact hUnique ht' hRecalled hj hReached
      · rintro rfl
        obtain rfl := Option.some.inj (hj.symm.trans hk)
        exact Option.some.inj (hReached.symm.trans (hRecalled.reached hTrue))
    · obtain ⟨ht', hRecalled⟩ := remembered_later hRanked hRank hLater ht
      obtain ⟨hTruthful, hBelow, hDepth⟩ := truthful_at hRanked hRank hLive
      refine (hTruthful.takenInput hRanked (by omega) (by omega) hBelow ht').mono ?_
      rintro j t'' ⟨ht'', hWithin, m, y, hm, hj, hy⟩
      obtain rfl := Option.some.inj (hn.symm.trans hm)
      exact hUnique ht'' (hRecalled.trans hWithin.recalled) hj hy

end

end Machine
end ArmBackend
