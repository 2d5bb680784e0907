import ArmBackend.Fault
import ArmBackend.Proofs.Outcome

/-!
# Steps that settle

A step settles when it gives a result that is as promised, or fails with a fault of a kind that its
caller expects. What a caller expects is a parameter; a step that settles for every such parameter
does not fail at all.

## Results

* `Settles.bind`, `Settles.foldlM`, `Settles.forM` — a row of steps that settle settles.
* `filterM_eq_ok`, `filterM_inv` — a loop that keeps what its steps decide to keep.
-/

namespace ArmBackend

/-- A step gives a result with property `P`, or fails with a fault that is in `R`. -/
def Settles {α : Type} (R : Fault → Prop) (m : Except Fault α) (P : α → Prop) : Prop :=
  match m with
  | .ok a => P a
  | .error f => R f

namespace Settles

variable {α β : Type} {R : Fault → Prop} {m : Except Fault α} {P Q : α → Prop}

theorem mono (h : Settles R m P) (hPQ : ∀ a, P a → Q a) : Settles R m Q := by
  unfold Settles at *
  split at h
  · exact hPQ _ h
  · exact h

theorem weaken {R' : Fault → Prop} (h : Settles R m P) (hR : ∀ f, R f → R' f)
    (hPQ : ∀ a, P a → Q a) : Settles R' m Q := by
  unfold Settles at *
  split at h
  · exact hPQ _ h
  · exact hR _ h

theorem bind {f : α → Except Fault β} {Q : β → Prop} (h : Settles R m P)
    (hf : ∀ a, P a → Settles R (f a) Q) : Settles R (m >>= f) Q := by
  cases m with
  | ok a => exact hf a h
  | error fault => exact h

theorem pure {a : α} (h : P a) : Settles R (Pure.pure a) P :=
  h

theorem of_eq_ok {a : α} (hm : m = .ok a) (h : P a) : Settles R m P := by
  rw [hm]
  exact h

/-- Where every fault is expected only the result matters. -/
theorem intro (h : ∀ a, m = .ok a → P a) : Settles (fun _ => True) m P := by
  cases m with
  | ok a => exact h a rfl
  | error _ => exact trivial

/-- A step that no fault is expected of gives a result. -/
theorem exists_ok (h : Settles (fun _ => False) m P) : ∃ a, m = .ok a ∧ P a := by
  cases m with
  | ok a => exact ⟨a, rfl, h⟩
  | error _ => exact h.elim

/-- What a step that has settled gives. -/
theorem of_ok (h : Settles R m P) {a : α} (hm : m = .ok a) : P a := by
  rw [hm] at h
  exact h

/-- A loop settles when each of its steps does. The invariant may speak of what is done already. -/
theorem foldlM {f : β → α → Except Fault β} {l : List α} {b : β} {I : List α → β → Prop}
    (hStart : I [] b) (hStep : ∀ front a rest b, l = front ++ a :: rest → I front b →
      Settles R (f b a) (I (front ++ [a]))) : Settles R (l.foldlM f b) (I l) := by
  -- induction on what is left, with the front done so far
  have hAll : ∀ rest front b, l = front ++ rest → I front b → Settles R (rest.foldlM f b) (I l) := by
    intro rest
    induction rest with
    | nil =>
      intro front b hl hI
      rw [hl, List.append_nil]
      exact Settles.pure hI
    | cons a rest ih =>
      intro front b hl hI
      rw [List.foldlM_cons]
      refine (hStep front a rest b hl hI).bind ?_
      intro b' hI'
      exact ih (front ++ [a]) b' (by rw [hl]; simp) hI'
  exact hAll l [] b rfl hStart

/-- A loop whose steps cannot fail. -/
theorem foldl {f : β → α → β} {l : List α} {b : β} {I : List α → β → Prop} (hStart : I [] b)
    (hStep : ∀ front a rest b, l = front ++ a :: rest → I front b → I (front ++ [a]) (f b a)) :
    I l (l.foldl f b) := by
  have hLoop : Settles (fun _ => False) (l.foldlM (fun b a => Pure.pure (f b a)) b) (I l) := by
    refine Settles.foldlM hStart ?_
    intro front a rest b hl hI
    exact Settles.pure (hStep front a rest b hl hI)
  rw [List.foldlM_pure] at hLoop
  exact hLoop

/-- A loop that keeps an invariant settles when each of its steps does. -/
theorem foldlM_mem {f : β → α → Except Fault β} {l : List α} {b : β} {I : β → Prop}
    (hStart : I b) (hStep : ∀ a ∈ l, ∀ b, I b → Settles R (f b a) I) :
    Settles R (l.foldlM f b) I := by
  refine Settles.foldlM (I := fun _ => I) hStart ?_
  intro front a rest b hl hI
  exact hStep a (by rw [hl]; simp) b hI

theorem forM {f : α → Except Fault Unit} {l : List α} {Q : α → Prop}
    (hStep : ∀ a ∈ l, Settles R (f a) fun _ => Q a) : Settles R (l.forM f) fun _ => ∀ a ∈ l, Q a := by
  induction l with
  | nil => exact Settles.pure (by simp)
  | cons a l ih =>
    show Settles R (f a >>= fun _ => l.forM f) _
    refine (hStep a List.mem_cons_self).bind ?_
    intro _ ha
    refine (ih fun x hx => hStep x (List.mem_cons_of_mem _ hx)).mono ?_
    intro _ hl x hx
    rcases List.mem_cons.mp hx with rfl | hx
    · exact ha
    · exact hl x hx

end Settles

/-! ## Loops whose steps cannot fail -/

section Loops

variable {α β : Type} {l : List α}

theorem filterAuxM_eq_ok {f : α → Except Fault Bool} {p : α → Bool}
    (h : ∀ a ∈ l, f a = .ok (p a)) (acc : List α) :
    l.filterAuxM f acc = .ok ((l.filter p).reverse ++ acc) := by
  induction l generalizing acc with
  | nil => rfl
  | cons a l ih =>
    have hRest := ih fun x hx => h x (List.mem_cons_of_mem _ hx)
    rw [List.filterAuxM, h a List.mem_cons_self]
    show l.filterAuxM f (cond (p a) (a :: acc) acc) = _
    rw [hRest]
    cases hp : p a <;> simp [hp]

theorem filterM_eq_ok {f : α → Except Fault Bool} {p : α → Bool}
    (h : ∀ a ∈ l, f a = .ok (p a)) : l.filterM f = .ok (l.filter p) := by
  rw [List.filterM, filterAuxM_eq_ok h]
  show Except.ok ((l.filter p).reverse ++ []).reverse = _
  rw [List.append_nil, List.reverse_reverse]

/-- A loop that keeps some of the members has decided all of them. -/
theorem filterM_inv {f : α → Except Fault Bool} {kept : List α} (h : l.filterM f = .ok kept) :
    ∃ p : α → Bool, (∀ a ∈ l, f a = .ok (p a)) ∧ kept = l.filter p := by
  let p : α → Bool := fun a => (f a).toOption.getD false
  -- `filterM` accumulates in reverse; the generalised form says only that every test succeeded
  have hAux : ∀ (l acc : List α) {kept : List α}, l.filterAuxM f acc = .ok kept →
      ∀ a ∈ l, f a = .ok (p a) := by
    intro l
    induction l with
    | nil =>
      intro acc kept _ a ha
      cases ha
    | cons x l ih =>
      intro acc kept h a ha
      rw [List.filterAuxM] at h
      obtain ⟨keep, hx, h⟩ := bind_eq_ok.mp h
      rcases List.mem_cons.mp ha with rfl | ha
      · show f a = .ok ((f a).toOption.getD false)
        rw [hx]
        rfl
      · exact ih _ h a ha
  have hAll : ∀ a ∈ l, f a = .ok (p a) := by
    rw [List.filterM] at h
    obtain ⟨rev, hRev, -⟩ := bind_eq_ok.mp h
    exact hAux l [] hRev
  refine ⟨p, hAll, ?_⟩
  rw [filterM_eq_ok hAll] at h
  exact (Except.ok.inj h).symm

/-! Loops whose steps have the same outcomes have the same outcome. -/

theorem foldlM_congr_ok {f f' : β → α → Except Fault β} {b : β} {I : β → Prop} (hStart : I b)
    (h : ∀ a ∈ l, ∀ b, I b → f b a = f' b a ∧ Settles (fun _ => True) (f' b a) I) :
    l.foldlM f b = l.foldlM f' b := by
  induction l generalizing b with
  | nil => rfl
  | cons a l ih =>
    obtain ⟨hSame, hNext⟩ := h a List.mem_cons_self b hStart
    rw [List.foldlM_cons, List.foldlM_cons, hSame]
    -- only a step that succeeds is followed by others, and it keeps the invariant
    refine bind_congr_ok ?_
    intro b' hb'
    exact ih (hNext.of_ok hb') fun x hx => h x (List.mem_cons_of_mem _ hx)

theorem foldlM_congr {f f' : β → α → Except Fault β} (h : ∀ a ∈ l, ∀ b, f b a = f' b a) (b : β) :
    l.foldlM f b = l.foldlM f' b :=
  foldlM_congr_ok (I := fun _ => True) trivial fun a ha b _ =>
    ⟨h a ha b, .intro fun _ _ => trivial⟩

theorem toOption_foldlM_congr {f f' : β → α → Except Fault β}
    (h : ∀ a ∈ l, ∀ b, (f b a).toOption = (f' b a).toOption) (b : β) :
    (l.foldlM f b).toOption = (l.foldlM f' b).toOption := by
  induction l generalizing b with
  | nil => rfl
  | cons a l ih =>
    rw [List.foldlM_cons, List.foldlM_cons]
    refine toOption_bind_congr (h a List.mem_cons_self b) ?_
    intro b' _
    exact ih (fun x hx => h x (List.mem_cons_of_mem _ hx)) b'

/-- Where a loop succeeds, one with the same results in each step does. -/
theorem foldlM_eq_ok_of {f f' : β → α → Except Fault β} {b c : β} {I : β → Prop} (hStart : I b)
    (h : ∀ a ∈ l, ∀ b c, I b → f b a = .ok c → f' b a = .ok c ∧ I c)
    (hRun : l.foldlM f b = .ok c) : l.foldlM f' b = .ok c := by
  induction l generalizing b with
  | nil => exact hRun
  | cons a l ih =>
    rw [List.foldlM_cons] at hRun ⊢
    obtain ⟨b', hb', hRun⟩ := bind_eq_ok.mp hRun
    obtain ⟨hStep, hNext⟩ := h a List.mem_cons_self b b' hStart hb'
    rw [hStep]
    exact ih hNext (fun x hx => h x (List.mem_cons_of_mem _ hx)) hRun

/-- A loop that passes over all members. -/
theorem foldlM_skip {f : β → α → Except Fault β} (h : ∀ a ∈ l, ∀ b, f b a = .ok b) (b : β) :
    l.foldlM f b = .ok b := by
  induction l with
  | nil => rfl
  | cons a l ih =>
    rw [List.foldlM_cons, h a List.mem_cons_self, ok_bind]
    exact ih fun x hx => h x (List.mem_cons_of_mem _ hx)

theorem forM_congr {f f' : α → Except Fault Unit} (h : ∀ a ∈ l, f a = f' a) :
    l.forM f = l.forM f' := by
  induction l with
  | nil => rfl
  | cons a l ih =>
    show (f a >>= fun _ => l.forM f) = f' a >>= fun _ => l.forM f'
    rw [h a List.mem_cons_self, ih fun x hx => h x (List.mem_cons_of_mem _ hx)]

theorem filterM_congr {f f' : α → Except Fault Bool} (h : ∀ a ∈ l, f a = f' a) :
    l.filterM f = l.filterM f' := by
  have hAux : ∀ acc, l.filterAuxM f acc = l.filterAuxM f' acc := by
    induction l with
    | nil => exact fun _ => rfl
    | cons a l ih =>
      intro acc
      rw [List.filterAuxM, List.filterAuxM, h a List.mem_cons_self]
      refine bind_congr_ok ?_
      intro keep _
      exact ih (fun x hx => h x (List.mem_cons_of_mem _ hx)) _
  rw [List.filterM, List.filterM, hAux]

end Loops
end ArmBackend
