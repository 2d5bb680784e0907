import ArmBackend.Proofs.Exchanged
import ArmBackend.Proofs.Selection.Rules.Alike
import ArmBackend.Proofs.Selection.Rules.Total

/-!
# Steps over a graph with exchanged operands

Over two graphs that differ in the order of the operands of one node, a rule may ask the same
questions in another order. `Parallel` is for what does not depend on the order: both runs come to
the same answer and the same state, or both fail, if not with the same fault. Looks at the graph are
like that, so are the walk along negations and the search for an operation that a branch may emit.

What depends on the order gives other registers and other numbers, but the same outlines: `Matched`
says so of two runs that both succeed. `Outlined` gives the outline of a rule as it follows from the
graph, for the rules that ask of each operand in turn whether they may take it in.

## Results

* `Parallel.bind`, `Matched.bind`, `Agreed.bind` — rows of steps.
* `Outlined.ask`, `chosen_unique` — the outline of a rule that asks of both operands.
* `Exchanged.canCover`, `Exchanged.clears?`, `Exchanged.takes?` — which operands may be taken in.
* `Exchanged.stripNegations`, `Exchanged.fusedOverflow?` — the longer looks.
-/

namespace ArmBackend.Selection

open Twin (coverable canCover_eq)

variable {α β : Type} {site : Site} {g' : Graph} {id u y : NodeId} {k : Continuation}
  {m : BinaryMatch} {operator : Operator} {L : List Outline} {o o' yes no : Outline}

/-! ## Outcomes over two graphs -/

/-- From every state both steps come to the same answer and the same state, or both fail. -/
def Parallel (site : Site) (g' : Graph) (m m' : Select α) : Prop :=
  ∀ s, (m' (site.over g') s).toOption = (m site s).toOption

/-- From every state both steps succeed, or both fail. -/
def Agreed (site : Site) (g' : Graph) (m m' : Select α) : Prop :=
  ∀ s, (∃ p, m' (site.over g') s = .ok p) ↔ ∃ p, m site s = .ok p

/-- If both steps succeed, they leave the same outlines. -/
def Matched (site : Site) (g' : Graph) (m m' : Select α) : Prop :=
  ∀ s, Ensures site s m fun _ t => Ensures (site.over g') s m' fun _ t' => t'.outlines = t.outlines

namespace Parallel

variable {m m' : Select α} {f f' : α → Select β}

/-- The same step over both graphs, or a step that asks nothing of them. -/
theorem of_eq (h : ∀ s, m' (site.over g') s = m site s) : Parallel site g' m m' :=
  fun s => congrArg Except.toOption (h s)

/-- Rows of steps that come to the same are run side by side. -/
theorem bind (h : Parallel site g' m m') (hf : ∀ a, Parallel site g' (f a) (f' a)) :
    Parallel site g' (m >>= f) (m' >>= f') := by
  intro s
  show (m' (site.over g') s >>= fun p => f' p.1 (site.over g') p.2).toOption =
    (m site s >>= fun p => f p.1 site p.2).toOption
  exact toOption_bind_congr (h s) fun p _ => hf p.1 p.2

/-- Each side reads its own graph. -/
theorem read {f f' : Site → Select α} (h : Parallel site g' (f site) (f' (site.over g'))) :
    Parallel site g' (read >>= f) (read >>= f') :=
  h

/-- Both sides read the same state. -/
theorem get {f f' : State → Select α} (h : ∀ s, Parallel site g' (f s) (f' s)) :
    Parallel site g' (get >>= f) (get >>= f') :=
  fun s => h s s

/-- Two looks at the graphs, of which both or neither succeeds. -/
theorem looks {e e' : Except Fault α} (hBoth : (∃ a, e = .ok a) ↔ ∃ a, e' = .ok a)
    (hf : ∀ a a', e = .ok a → e' = .ok a' → Parallel site g' (f a) (f' a')) :
    Parallel site g' (liftM e >>= f) (liftM e' >>= f') := by
  cases e with
  | error =>
    cases e' with
    | error => exact fun s => rfl
    | ok a =>
      obtain ⟨b, ⟨⟩⟩ := hBoth.mpr ⟨a, rfl⟩
  | ok a =>
    obtain ⟨b, rfl⟩ := hBoth.mp ⟨a, rfl⟩
    exact hf a b rfl rfl

/-- The same look at both graphs. -/
theorem look {e e' : Except Fault α} (hSame : e' = e)
    (hf : ∀ a, e = .ok a → Parallel site g' (f a) (f' a)) :
    Parallel site g' (liftM e >>= f) (liftM e' >>= f') := by
  subst hSame
  refine looks Iff.rfl fun a a' ha ha' => ?_
  cases ha.symm.trans ha'
  exact hf a ha

end Parallel

/-- A step that succeeds hands on to what comes behind it. -/
theorem exists_run_bind {m : Select α} {f : α → Select β} {s : State} :
    (∃ p, (m >>= f) site s = .ok p) ↔
      ∃ q p, m site s = .ok q ∧ f q.1 site q.2 = .ok p := by
  constructor
  · rintro ⟨p, hp⟩
    obtain ⟨q, hq, hRest⟩ := bind_eq_ok.mp (show (m site s >>= fun q => f q.1 site q.2) = _ from hp)
    exact ⟨q, p, hq, hRest⟩
  · rintro ⟨q, p, hq, hRest⟩
    exact ⟨p, (run_bind (a := q.1) (t := q.2) hq).trans hRest⟩

namespace Agreed

variable {m m' : Select α} {f f' : α → Select β}

/-- Steps that succeed agree. -/
theorem of_returns (h : Returns site m) (h' : Returns (site.over g') m') :
    Agreed site g' m m' := by
  intro s
  obtain ⟨a, t, hRun⟩ := h s
  obtain ⟨a', t', hRun'⟩ := h' s
  exact ⟨fun _ => ⟨_, hRun⟩, fun _ => ⟨_, hRun'⟩⟩

/-- Two faults agree, whatever they are. -/
theorem throw (e e' : Fault) : Agreed site g' (throw e : Select α) (throw e') :=
  fun _ => ⟨nofun, nofun⟩

/-- Each side reads its own graph. -/
theorem read {f f' : Site → Select α} (h : Agreed site g' (f site) (f' (site.over g'))) :
    Agreed site g' (read >>= f) (read >>= f') :=
  h

/-- Two looks at the graphs that succeed. -/
theorem look {e e' : Except Fault α} {a a' : α} (he : e = .ok a) (he' : e' = .ok a')
    (h : Agreed site g' (f a) (f' a')) : Agreed site g' (liftM e >>= f) (liftM e' >>= f') := by
  rw [he, he']
  exact h

/-- What follows the same answer agrees. -/
theorem bind {P : α → Prop} (h : Parallel site g' m m') (hP : ∀ s, Ensures site s m fun a _ => P a)
    (hf : ∀ a, P a → Agreed site g' (f a) (f' a)) : Agreed site g' (m >>= f) (m' >>= f') := by
  intro s
  rw [exists_run_bind, exists_run_bind]
  constructor
  · rintro ⟨q, p, hq, hRest⟩
    have hSame : m site s = .ok q := by
      rw [← toOption_eq_some, ← h s, toOption_eq_some]
      exact hq
    -- What follows starts from the same answer in the same state.
    obtain ⟨p', hp'⟩ := (hf q.1 (hP s q.1 q.2 hSame) q.2).mp ⟨p, hRest⟩
    exact ⟨q, p', hSame, hp'⟩
  · rintro ⟨q, p, hq, hRest⟩
    have hSame : m' (site.over g') s = .ok q := by
      rw [← toOption_eq_some, h s, toOption_eq_some]
      exact hq
    obtain ⟨p', hp'⟩ := (hf q.1 (hP s q.1 q.2 hq) q.2).mpr ⟨p, hRest⟩
    exact ⟨q, p', hSame, hp'⟩

end Agreed

namespace Matched

variable {m m' : Select α} {f f' : α → Select β}

/-- Steps that write the same outlines match. -/
theorem of_writes (h : Writes site m L) (h' : Writes (site.over g') m' L) :
    Matched site g' m m' := by
  intro s a t hRun a' t' hRun'
  rw [h s a t hRun, h' s a' t' hRun']

/-- What follows the same answer matches. -/
theorem after {P : α → Prop} (h : Parallel site g' m m')
    (hP : ∀ s, Ensures site s m fun a _ => P a) (hf : ∀ a, P a → Matched site g' (f a) (f' a)) :
    Matched site g' (m >>= f) (m' >>= f') := by
  intro s b t hRun b' t' hRun'
  obtain ⟨q, hq, hRest⟩ := bind_eq_ok.mp (show (m site s >>= fun q => f q.1 site q.2) = _ from hRun)
  obtain ⟨q', hq', hRest'⟩ := bind_eq_ok.mp
    (show (m' (site.over g') s >>= fun q => f' q.1 (site.over g') q.2) = _ from hRun')
  -- The first steps succeed with the same answer and leave the same state.
  have hSame : m site s = .ok q' := by
    rw [← toOption_eq_some, ← h s, toOption_eq_some]
    exact hq'
  cases hq.symm.trans hSame
  exact hf q.1 (hP s q.1 q.2 hq) q.2 b t hRest b' t' hRest'

/-- What follows the same answer matches, whatever the answer is. -/
theorem bind (h : Parallel site g' m m') (hf : ∀ a, Matched site g' (f a) (f' a)) :
    Matched site g' (m >>= f) (m' >>= f') :=
  .after (P := fun _ => True) h (fun _ _ _ _ => trivial) fun a _ => hf a

/-- Each side reads its own graph. -/
theorem read {f f' : Site → Select α} (h : Matched site g' (f site) (f' (site.over g'))) :
    Matched site g' (read >>= f) (read >>= f') :=
  h

/-- Two looks at the graphs. -/
theorem looks {e e' : Except Fault α}
    (hf : ∀ a a', e = .ok a → e' = .ok a' → Matched site g' (f a) (f' a')) :
    Matched site g' (liftM e >>= f) (liftM e' >>= f') := by
  cases e with
  | error =>
    rintro s b t ⟨⟩
  | ok a =>
    cases e' with
    | error =>
      rintro s b t hRun b' t' ⟨⟩
    | ok a' => exact hf a a' rfl rfl

/-- The same look at both graphs. -/
theorem look {e e' : Except Fault α} (hSame : e' = e)
    (hf : ∀ a, e = .ok a → Matched site g' (f a) (f' a)) :
    Matched site g' (liftM e >>= f) (liftM e' >>= f') := by
  subst hSame
  refine looks fun a a' ha ha' => ?_
  cases ha.symm.trans ha'
  exact hf a ha

/-- A step that begins with a look at the graph: nothing is to be said where the look fails. -/
theorem of_look {e : Graph → Except Fault β} {F : β → Select α}
    (h : ∀ b b', e site.graph = .ok b → e g' = .ok b' →
      Matched site g' (do F (← e (← MonadReader.read).graph))
        (do F (← e (← MonadReader.read).graph))) :
    Matched site g' (do F (← e (← MonadReader.read).graph))
      (do F (← e (← MonadReader.read).graph)) := by
  -- where a look fails, so does the run, and then there is nothing to compare
  cases he : e site.graph with
  | error f =>
    intro s a t hRun
    have hFault : (liftM (e site.graph) >>= F) site s = .ok (a, t) := hRun
    rw [he] at hFault
    cases hFault
  | ok b =>
    cases he' : e g' with
    | error f =>
      intro s a t _ a' t' hRun'
      have hFault : (liftM (e g') >>= F) (site.over g') s = .ok (a', t') := hRun'
      rw [he'] at hFault
      cases hFault
    | ok b' => exact h b b' he he'

/-- What fails on both sides matches. -/
theorem throw (e e' : Fault) : Matched site g' (throw e : Select α) (throw e') := by
  rintro s b t ⟨⟩

end Matched

/-! ## Rules that ask of both operands -/

/-- Whether a step that succeeds emits one instruction with the outline that there is. -/
def Outlined (site : Site) (m : Select α) (o? : Option Outline) : Prop :=
  ∀ s, Ensures site s m fun _ t => ∃ o, o? = some o ∧ t.outlines = s.outlines ++ [o]

/-- Whether a step that succeeds gives an answer, and changes nothing. -/
def Tells (site : Site) (m : Select α) (p : α → Bool) (answer : Option Bool) : Prop :=
  ∀ s, Ensures site s m fun a t => t = s ∧ answer = some (p a)

/-- A step that writes one outline emits it. -/
theorem Writes.outlined {m : Select α} (h : Writes site m [o]) : Outlined site m (some o) := by
  intro s
  refine (h s).mono ?_
  intro _ t ht
  exact ⟨o, rfl, ht⟩

/-- The outline may depend on the graph. -/
theorem Outlined.read {f : Site → Select α} {o? : Option Outline} (h : Outlined site (f site) o?) :
    Outlined site (read >>= f) o? :=
  h

/-- The outline may depend on a look-up that succeeds. -/
theorem Outlined.look {e : Except Fault α} {f : α → Select β} {a : α} {o? : Option Outline}
    (he : e = .ok a) (h : Outlined site (f a) o?) : Outlined site (liftM e >>= f) o? := by
  rw [he]
  exact h

/-- The outline that comes of a question and of what is done after either answer. -/
theorem Outlined.ask {m : Select α} {f : α → Select β} {p : α → Bool} {answer : Option Bool}
    {yes? no? : Option Outline} (hm : Tells site m p answer)
    (hYes : ∀ a, p a = true → Outlined site (f a) yes?)
    (hNo : ∀ a, p a = false → Outlined site (f a) no?) :
    Outlined site (m >>= f) (answer.bind fun b => if b then yes? else no?) := by
  intro s
  refine (ensures_bind _ _ _).mpr ((hm s).mono ?_)
  rintro a _ ⟨rfl, hAnswer⟩
  -- The answer is the one the graph gives, so one of the two ways is left.
  rw [hAnswer, Option.bind_some]
  cases hp : p a with
  | true => exact hYes a hp _
  | false => exact hNo a hp _

/-- The outline that comes of two questions, of which the second is asked only if the first is
denied. -/
def chosen (first second : Option Bool) (yes no : Outline) : Option Outline :=
  first.bind fun b => if b then some yes else second.bind fun b => if b then some yes else some no

/-- The order of the questions does not matter where both orders have an answer. -/
theorem chosen_unique {first second : Option Bool} (h : chosen first second yes no = some o)
    (h' : chosen first second yes no = some o' ∨ chosen second first yes no = some o') :
    o' = o := by
  -- `yes` takes one answer that is yes, in either order, and `no` takes both answers.
  rcases first with _ | _ | _ <;> rcases second with _ | _ | _
  all_goals simp_all [chosen]

/-- Two steps match if the outlines that there are agree. -/
theorem Matched.of_outlined {m m' : Select α} {o? o?' : Option Outline} (h : Outlined site m o?)
    (h' : Outlined (site.over g') m' o?') (hSame : ∀ o o', o? = some o → o?' = some o' → o' = o) :
    Matched site g' m m' := by
  intro s a t hRun a' t' hRun'
  obtain ⟨o, ho, ht⟩ := h s a t hRun
  obtain ⟨o', ho', ht'⟩ := h' s a' t' hRun'
  rw [ht, ht', hSame o o' ho ho']

/-! ## Operands that are taken in -/

/-- Whether a node is a complement that `user` alone consumes. -/
def clears? (site : Site) (user id : NodeId) : Option Bool :=
  (site.graph.complementOf? id).toOption.bind fun x? =>
    if x?.isSome then (coverable site user id).toOption else some false

/-- Whether a node is the product `op` that `user` alone consumes. -/
def takes? (site : Site) (op : Operator) (user id : NodeId) : Option Bool :=
  (site.graph.op id).toOption.bind fun operator =>
    if operator = op then (coverable site user id).toOption else some false

/-- Whether a user may take a node in is told without a change of the state. -/
theorem canCover_tells (user id : NodeId) :
    Tells site (canCover user id) (fun b => b) (coverable site user id).toOption := by
  intro s b t hRun
  rw [canCover_eq] at hRun
  cases hCover : coverable site user id with
  | error e =>
    rw [hCover] at hRun
    cases hRun
  | ok answer =>
    rw [hCover] at hRun
    cases hRun
    exact ⟨rfl, rfl⟩

/-- So it is with complements. -/
theorem coveredComplement?_tells (user id : NodeId) :
    Tells site (coveredComplement? user id) Option.isSome (clears? site user id) := by
  intro s
  unfold coveredComplement? clears?
  simp only [ensures_bind, ensures_read, ensures_lift]
  intro x? hx
  rw [hx]
  cases x? with
  | none => exact (ensures_pure _ _).mpr ⟨rfl, rfl⟩
  | some x =>
    simp only [ensures_bind, ensures_pure]
    refine (canCover_tells user id s).mono ?_
    -- A complement that may not be taken in is answered like no complement.
    rintro b t ⟨rfl, hAnswer⟩
    refine ⟨rfl, hAnswer.trans ?_⟩
    cases b <;> rfl

/-- So it is with products. -/
theorem isCoveredProduct_tells (op : Operator) (user : NodeId) {m : Int32Match}
    (hm : site.graph.HasOp m.id m.op) :
    Tells site (isCoveredProduct op user m) (fun b => b) (takes? site op user m.id) := by
  intro s
  unfold isCoveredProduct takes?
  rw [Graph.op_eq_ok.mpr hm, Except.toOption, Option.bind_some]
  by_cases hOp : m.op = op
  · rw [if_neg (not_not_intro hOp), if_pos hOp]
    exact canCover_tells user m.id s
  · rw [if_pos hOp, if_neg hOp]
    exact (ensures_pure _ _).mpr ⟨rfl, rfl⟩

/-- So it is with products of doubles. -/
theorem isCoveredDoubleProduct_tells (user id : NodeId) :
    Tells site (isCoveredDoubleProduct user id) (fun b => b)
      (takes? site (.float64 .mul) user id) := by
  intro s
  unfold isCoveredDoubleProduct takes?
  simp only [ensures_bind, ensures_read, ensures_lift]
  intro op hOp
  rw [hOp, Except.toOption, Option.bind_some]
  by_cases hMul : op = .float64 .mul
  · rw [if_neg (not_not_intro hMul), if_pos hMul]
    exact canCover_tells user id s
  · rw [if_pos hMul, if_neg hMul]
    exact (ensures_pure _ _).mpr ⟨rfl, rfl⟩

end ArmBackend.Selection

namespace ArmBackend.Graph.Exchanged

open Selection
open Twin (coverable canCover_eq)

variable {site : Site} {g' : Graph} {x l r user id u y : NodeId} {k : Continuation}
  {op : Opcode} {m m' : BinaryMatch}

/-! ## Looks at exchanged graphs -/

/-- A node may be taken in over both graphs or over neither. -/
theorem canCover (h : site.graph.Exchanged g' x l r) (user id : NodeId) (s : State) :
    canCover user id (site.over g') s = canCover user id site s := by
  have hUses := h.uses id fun users =>
    .ok ((users.filter fun u => (site.schedule.blockOf u).isSome).length == 1)
  simp only [List.filter_map, List.length_map] at hUses
  -- The answer is read off the uses, so it is a look of its own.
  have hLook : ∀ (place : Site) (e : Except Fault (List Use)) (f : List Use → Bool),
      (liftM e >>= fun uses => pure (f uses) : Select Bool) place s =
        (e >>= fun uses => .ok (f uses)).map fun answer => (answer, s) := by
    intro place e f
    cases e <;> rfl
  unfold Selection.canCover
  show (if site.schedule.blockOf id ≠ site.schedule.blockOf user then pure false
    else liftM (g'.uses id) >>= _ : Select Bool) (site.over g') s =
      (if site.schedule.blockOf id ≠ site.schedule.blockOf user then pure false
        else liftM (site.graph.uses id) >>= _ : Select Bool) site s
  split
  · rfl
  · rw [hLook, hLook]
    exact congrArg _ hUses

/-- The same, without the state. -/
theorem coverable (h : site.graph.Exchanged g' x l r) (user id : NodeId) :
    coverable (site.over g') user id = coverable site user id := by
  unfold Twin.coverable
  rw [h.canCover]

/-- Complements are taken in over both graphs or over neither. -/
theorem clears? (h : site.graph.Exchanged g' x l r) (user id : NodeId) :
    clears? (site.over g') user id = clears? site user id := by
  unfold Selection.clears?
  rw [h.coverable, h.complementOf?]

/-- Products are taken in over both graphs or over neither. -/
theorem takes? (h : site.graph.Exchanged g' x l r) (op : Operator) (user id : NodeId) :
    takes? (site.over g') op user id = takes? site op user id := by
  unfold Selection.takes?
  rw [h.coverable, h.op]

/-- A node is a shift over both graphs or over neither. -/
theorem shifts (h : site.graph.Exchanged g' x l r) (y : NodeId) :
    Selection.shifts g' y = Selection.shifts site.graph y := by
  unfold Selection.shifts
  cases hn : site.graph.node? y with
  | none => rw [h.node?_none hn]
  | some n =>
    obtain ⟨inputs, hn', -⟩ := h.node? hn
    rw [hn']
    rfl

/-- A node is a flexible operand over both graphs or over neither. -/
theorem fits (h : site.graph.Exchanged g' x l r) (op : Opcode) (y : NodeId) :
    Selection.fits g' op y = Selection.fits site.graph op y := by
  unfold Selection.fits
  rw [h.int32, h.shifts]

/-- The walk along negations is the same: a comparison with zero has the zero on the right whatever
the order of its operands is. -/
theorem stripNegations (h : site.graph.Exchanged g' x l r) (fuel : Nat) (user value : NodeId)
    (k : Continuation) :
    Parallel site g' (stripNegations fuel user value k) (stripNegations fuel user value k) := by
  induction fuel generalizing user value k with
  | zero => exact .of_eq fun _ => rfl
  | succ fuel ih =>
    have hDone : Parallel site g' (pure (user, value, k)) (pure (user, value, k)) :=
      .of_eq fun _ => rfl
    rw [Selection.stripNegations]
    refine (Parallel.of_eq (h.canCover user value)).bind fun covered => ?_
    split
    · exact hDone
    · refine .read (.look (h.op value) fun op _ => ?_)
      split
      · exact hDone
      -- The matches may differ, but not where the right operand is zero.
      · refine .looks h.binary_ok_iff fun m m' hm hm' => ?_
        rw [h.right_isConst hm hm']
        split
        · exact hDone
        · next hZero =>
          rw [h.binary_of_isConst hm hm' (by simpa using hZero)]
          exact ih value m.left.id k.negate

/-- The operation that a branch may emit for a flag is the same. -/
theorem fusedOverflow? (h : site.graph.Exchanged g' x l r) (hy : y ≠ x) (k : Continuation) :
    Parallel site g' (fusedOverflow? y k) (fusedOverflow? y k) := by
  have hNone : Parallel site g' (pure none : Select (Option (NodeId × Opcode × Opcode)))
      (pure none) := .of_eq fun _ => rfl
  unfold Selection.fusedOverflow?
  refine .read (.look (h.node hy) fun n _ => ?_)
  dsimp only
  split
  · exact hNone
  · refine .look (h.valueIn hy 0) fun z _ => .look (h.op z) fun op _ => ?_
    split
    · exact .of_eq fun _ => rfl
    · split
      · exact hNone
      · next direct reverse _ =>
        have hSome : Parallel site g' (pure (some (z, direct, reverse)))
            (pure (some (z, direct, reverse))) := .of_eq fun _ => rfl
        refine .get fun s => ?_
        show Parallel site g'
          (if _ || decide (site.schedule.blockOf z ≠ some site.block) then _ else _)
          (if _ || decide (site.schedule.blockOf z ≠ some site.block) then _ else _)
        split
        · exact hNone
        · refine .look (h.findProjection z 0) fun value _ => ?_
          split
          · exact hSome
          · refine .looks h.uses_ok_iff fun uses uses' hUses hUses' => ?_
            -- Who uses the value is the same, if not at which of its inputs.
            have hAny : (uses'.any fun u => site.schedule.blockOf u.user = some site.block) =
                uses.any fun u => site.schedule.blockOf u.user = some site.block := by
              have hUsers := h.users value
              rw [← uses_eq_ok hUses, ← uses_eq_ok hUses'] at hUsers
              have hUsersAny := congrArg
                (fun l => l.any fun u => site.schedule.blockOf u = some site.block) hUsers
              rw [List.any_map, List.any_map] at hUsersAny
              exact hUsersAny
            show Parallel site g' (if (uses.any _) = true then _ else _)
              (if (uses'.any fun u => site.schedule.blockOf u.user = some site.block) = true
                then _ else _)
            rw [hAny]
            split
            · exact hNone
            · exact hSome

/-- The other graph is grounded too. -/
theorem grounded {g : Graph} (h : g.Exchanged g' x l r) (hGrounded : g.Grounded) : g'.Grounded := by
  refine ⟨h.wellFormed hGrounded.wellFormed, ?_⟩
  intro u n' hn'
  obtain ⟨inputs, hn, -⟩ := h.symm.node? hn'
  obtain ⟨y, hCarries⟩ := hGrounded.carried hn
  -- The induction is on the chain of ends of regions, of which none is the node itself.
  clear hn hn'
  induction hCarries with
  | own hn hFinish =>
    obtain ⟨inputs, hn', -⟩ := h.node? hn
    exact exists_carries hn' hFinish
  | @finish u y z n hn hOp hy _ ih =>
    obtain ⟨w, hw⟩ := ih
    have hApart : u ≠ x := h.ne_of_op ⟨n, hn, hOp⟩ rfl
    exact ⟨w, .finish ((h.other u hApart).trans hn) hOp hy hw⟩
  | @projection u y n op hn hOp =>
    obtain ⟨inputs, hn', -⟩ := h.node? hn
    exact exists_carries hn' (by rw [hOp]; nofun)

end ArmBackend.Graph.Exchanged
