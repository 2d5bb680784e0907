import ArmBackend.Proofs.Members
import Mathlib.Data.Finset.Basic
import Mathlib.Logic.Function.Basic

/-!
# Many sets under one run of requests

Sets that are known by names are made, written, joined and copied in any order. Their words differ
in number, with the capacities they were made with and with the keys they were asked to hold, but
what can be asked of them depends only on the finite sets of numbers that the requests describe.

## Results

* `perform_represents` — one request does to words what it says about sets.
* `run_represents` — so does every run of requests, and none fails.
* `run_implements` — after every run all questions are answered as the finite sets answer them.
-/

namespace ArmBackend.BitSet

variable {ι : Type} {s t : BitSet} {m m' : Finset Nat}

/-! ## Requests -/

/-- What a set of a pool can be asked to become. Keys are natural numbers. -/
inductive Request (ι : Type)
  /-- An empty set with room. -/
  | create (x : ι) (capacity : Int)
  /-- The set that was never written. -/
  | zero (x : ι)
  | insert (x : ι) (k : Nat)
  | insertAll (x : ι) (ks : List Nat)
  | erase (x : ι) (k : Nat)
  | testAndInsert (x : ι) (k : Nat)
  | union (x y : ι)
  | diff (x y : ι)
  /-- `x` becomes a copy of `y`. -/
  | copy (x y : ι)
  | clear (x : ι)

namespace Request

/-- The set that a request changes. -/
def target : Request ι → ι
  | .create x _ | .zero x | .insert x _ | .insertAll x _ | .erase x _ | .testAndInsert x _
  | .union x _ | .diff x _ | .copy x _ | .clear x => x

/-- The set that a request makes of its target, and what it reports. -/
def perform (r : Request ι) (pool : ι → BitSet) : Except Fault (BitSet × Option Bool) :=
  match r with
  | .create _ capacity => return (withCapacity capacity, none)
  | .zero _ => return (.empty, none)
  | .insert x k => return (← (pool x).insertKey k, none)
  | .insertAll x ks => return (← (pool x).insertKeys (ks.map Nat.cast), none)
  | .erase x k => return (← (pool x).eraseKey k, none)
  | .testAndInsert x k => do
    let (was, s) ← (pool x).testAndInsert k
    return (s, some was)
  | .union x y => return ((pool x).union (pool y), none)
  | .diff x y => return ((pool x).diff (pool y), none)
  | .copy _ y => return ((pool y).copy, none)
  | .clear x => return ((pool x).clear, none)

/-- The finite set that a request describes. -/
def describes (r : Request ι) (sets : ι → Finset Nat) : Finset Nat :=
  match r with
  | .create _ _ | .zero _ | .clear _ => ∅
  | .insert x k | .testAndInsert x k => Insert.insert k (sets x)
  | .insertAll x ks => sets x ∪ ks.toFinset
  | .erase x k => (sets x).erase k
  | .union x y => sets x ∪ sets y
  | .diff x y => sets x \ sets y
  | .copy _ y => sets y

/-- What a request reports: whether the key was there before. -/
def reports? (r : Request ι) (sets : ι → Finset Nat) : Option Bool :=
  match r with
  | .testAndInsert x k => some (decide (k ∈ sets x))
  | _ => none

end Request

section Runs

variable [DecidableEq ι]

/-- The pool after requests, one after the other, and all that they report. -/
def run : List (Request ι) → (ι → BitSet) → Except Fault ((ι → BitSet) × List Bool)
  | [], pool => .ok (pool, [])
  | r :: rest, pool => do
    let (s, told) ← r.perform pool
    let (pool, more) ← run rest (Function.update pool r.target s)
    return (pool, told.toList ++ more)

/-- The finite sets that requests describe. -/
def described : List (Request ι) → (ι → Finset Nat) → ι → Finset Nat
  | [], sets => sets
  | r :: rest, sets => described rest (Function.update sets r.target (r.describes sets))

/-- What requests report about finite sets. -/
def reported : List (Request ι) → (ι → Finset Nat) → List Bool
  | [], _ => []
  | r :: rest, sets =>
    (r.reports? sets).toList ++ reported rest (Function.update sets r.target (r.describes sets))

end Runs

/-! ## What sets stand for -/

/-- Whether the members of a set are those of a finite set. -/
def Represents (s : BitSet) (m : Finset Nat) : Prop :=
  ∀ k, s.mem k = decide (k ∈ m)

/-- Whether all questions about a set are answered as a finite set answers them. An end that is
missing counts as minus one. -/
structure Answers (s : BitSet) (m : Finset Nat) : Prop where
  contains : ∀ x : Int, s.contains x = true ↔ ∃ k ∈ m, x = (k : Int)
  negative : ∀ x : Int, x < 0 → s.contains x = false
  increasing : s.toList.Pairwise (· < ·)
  mem : ∀ k, k ∈ s.toList ↔ k ∈ m
  walks : ∀ {σ : Type} (f : σ → Nat → σ × Bool) (init : σ),
    Visits f s.toList init (s.foldWhile f init)
  size : s.size = s.toList.length
  first : s.first? = s.toList.head?
  last : s.last? = s.toList.getLast?
  bound : (s.bound : Int) = s.last?.elim (-1) Nat.cast + 1

theorem Represents.answers (h : s.Represents m) : s.Answers m where
  contains x := by
    rw [contains_iff]
    constructor
    · rintro ⟨k, rfl, hk⟩
      rw [h k, decide_eq_true_eq] at hk
      exact ⟨k, hk, rfl⟩
    · rintro ⟨k, hk, rfl⟩
      exact ⟨k, rfl, by rw [h k, decide_eq_true hk]⟩
  negative x hx := by
    unfold BitSet.contains
    rw [decide_eq_false (Int.not_le.mpr hx), Bool.false_and]
  -- the loops are read as the list of members, of which the rest are list facts
  increasing := by
    rw [toList_eq]
    exact (lists_members s).increasing
  mem k := by rw [toList_eq, (lists_members s).mem, h k, decide_eq_true_eq]
  walks f init := by
    rw [toList_eq]
    exact foldWhile_visits s f init
  size := by rw [toList_eq, size_eq]
  first := by rw [toList_eq, first?_eq]
  last := by rw [toList_eq, last?_eq]
  bound := by
    unfold BitSet.bound
    cases s.last? <;> rfl

/-! ## Runs -/

theorem mem_insertAll (s : BitSet) (ks : List Nat) (j : Nat) :
    (ks.foldl insert s).mem j = (s.mem j || decide (j ∈ ks)) := by
  induction ks generalizing s with
  | nil => simp
  | cons k rest ih =>
    rw [List.foldl_cons, ih, mem_insert]
    by_cases hj : j = k <;> simp [hj]

/-- One request does to words what it says about sets. -/
theorem perform_represents (r : Request ι) {pool : ι → BitSet} {sets : ι → Finset Nat}
    (h : ∀ x, (pool x).Represents (sets x)) :
    ∃ s, r.perform pool = .ok (s, r.reports? sets) ∧ s.Represents (r.describes sets) := by
  -- One case per request; those that change a set go through the bounds check of their key.
  cases r with
  | create x capacity => exact ⟨_, rfl, fun k => by simp [Request.describes]⟩
  | zero x => exact ⟨_, rfl, fun k => by simp [Request.describes]⟩
  | insert x k =>
    refine ⟨(pool x).insert k, ?_, fun j => ?_⟩
    · unfold Request.perform
      dsimp only
      rw [insertKey_natCast]
      rfl
    · rw [mem_insert, h x j]
      simp [Request.describes]
  | insertAll x ks =>
    refine ⟨ks.foldl BitSet.insert (pool x), ?_, fun j => ?_⟩
    · unfold Request.perform
      dsimp only
      rw [insertKeys_natCast]
      rfl
    · rw [mem_insertAll, h x j]
      simp [Request.describes]
  | erase x k =>
    refine ⟨(pool x).erase k, ?_, fun j => ?_⟩
    · unfold Request.perform
      dsimp only
      rw [eraseKey_natCast]
      rfl
    · rw [mem_erase, h x j]
      simp [Request.describes]
  | testAndInsert x k =>
    refine ⟨if (pool x).mem k then pool x else (pool x).insert k, ?_, fun j => ?_⟩
    · unfold Request.perform
      dsimp only
      rw [testAndInsert_natCast, h x k]
      rfl
    · by_cases hk : k ∈ sets x
      · rw [if_pos (by rw [h x k, decide_eq_true hk]), h x j]
        simp [Request.describes, hk]
      · rw [if_neg (by rw [h x k, decide_eq_false hk]; decide), mem_insert, h x j]
        simp [Request.describes]
  | union x y => exact ⟨_, rfl, fun k => by simp [Request.describes, h x k, h y k]⟩
  | diff x y => exact ⟨_, rfl, fun k => by simp [Request.describes, h x k, h y k]⟩
  | copy x y => exact ⟨_, rfl, fun k => (mem_copy (pool y) k).trans (h y k)⟩
  | clear x => exact ⟨_, rfl, fun k => by simp [Request.describes]⟩

variable [DecidableEq ι]

/-- A run of requests does to words what it says about sets, and none fails. -/
theorem run_represents (rs : List (Request ι)) {pool : ι → BitSet} {sets : ι → Finset Nat}
    (h : ∀ x, (pool x).Represents (sets x)) :
    ∃ pool', run rs pool = .ok (pool', reported rs sets) ∧
      ∀ x, (pool' x).Represents (described rs sets x) := by
  induction rs generalizing pool sets with
  | nil => exact ⟨pool, rfl, h⟩
  | cons r rest ih =>
    obtain ⟨s, hPerform, hs⟩ := perform_represents r h
    -- only the pool the request names changes, with its set
    have hStep : ∀ x, (Function.update pool r.target s x).Represents
        (Function.update sets r.target (r.describes sets) x) := by
      intro x
      by_cases hx : x = r.target
      · subst hx
        rw [Function.update_self, Function.update_self]
        exact hs
      · rw [Function.update_of_ne hx, Function.update_of_ne hx]
        exact h x
    obtain ⟨pool', hRun, hPool⟩ := ih hStep
    refine ⟨pool', ?_, hPool⟩
    unfold run reported
    rw [hPerform]
    show (run rest (Function.update pool r.target s)).bind _ = _
    rw [hRun]
    rfl

theorem described_cons (r : Request ι) (rest : List (Request ι)) (sets : ι → Finset Nat) :
    described (r :: rest) sets =
      described rest (Function.update sets r.target (r.describes sets)) :=
  rfl

theorem described_append (before after : List (Request ι)) (sets : ι → Finset Nat) :
    described (before ++ after) sets = described after (described before sets) := by
  induction before generalizing sets with
  | nil => rfl
  | cons r rest ih => exact ih _

/-- Requests for other sets leave a set alone. -/
theorem described_of_untouched {rs : List (Request ι)} {x : ι} (h : ∀ r ∈ rs, r.target ≠ x)
    (sets : ι → Finset Nat) : described rs sets x = sets x := by
  induction rs generalizing sets with
  | nil => rfl
  | cons r rest ih =>
    rw [described_cons, ih (fun r' hr' => h r' (List.mem_cons_of_mem _ hr')),
      Function.update_of_ne (h r List.mem_cons_self).symm]

theorem Answers.toList_eq (hs : s.Answers m) (ht : t.Answers m) : s.toList = t.toList :=
  Lists.unique ⟨hs.increasing, hs.mem⟩ ⟨ht.increasing, ht.mem⟩

/-- After every run of requests on sets that were never written, none of which fails, all questions
are answered as the finite sets answer them that the requests describe. A copy keeps the members that
the other set had when it was made, whatever becomes of that one. -/
theorem run_implements (rs : List (Request ι)) :
    ∃ pool, run rs (fun _ => .empty) = .ok (pool, reported rs fun _ => ∅) ∧
      (∀ x, (pool x).Answers (described rs (fun _ => ∅) x)) ∧
      ∀ before x y after, rs = before ++ .copy x y :: after → (∀ r ∈ after, r.target ≠ x) →
        ∃ earlier told, run before (fun _ => .empty) = .ok (earlier, told) ∧
          (pool x).toList = (earlier y).toList := by
  have hStart : ∀ _ : ι, Represents .empty ∅ := fun _ k => by simp
  obtain ⟨pool, hRun, hPool⟩ := run_represents rs hStart
  refine ⟨pool, hRun, fun x => (hPool x).answers, ?_⟩
  rintro before x y after rfl hAfter
  obtain ⟨earlier, hBefore, hEarlier⟩ := run_represents before hStart
  refine ⟨earlier, _, hBefore, (hPool x).answers.toList_eq ?_⟩
  -- Both describe the same finite set, and that determines the list.
  have hSame : described (before ++ .copy x y :: after) (fun _ => ∅) x =
      described before (fun _ => ∅) y := by
    rw [described_append, described_cons, described_of_untouched hAfter]
    exact Function.update_self x _ _
  rw [hSame]
  exact (hEarlier y).answers

/-- Sets of different capacities: the second is greater than the others, the third is a copy of the
first that stays when the first is joined with the second and then emptied. -/
def mixture : List (Request (Fin 3)) :=
  [.create 0 10, .create 1 300, .insertAll 0 [64, 2, 63], .insertAll 1 [2, 250], .erase 1 1000,
    .testAndInsert 0 64, .copy 2 0, .union 0 1, .testAndInsert 0 250, .diff 1 2, .clear 0]

theorem run_implements_mixture :
    (∀ r ∈ mixture.drop 7, r.target ≠ 2) ∧
      ∃ pool, run mixture (fun _ => .empty) = .ok (pool, [true, true]) ∧
        (∀ k, k ∈ (pool 1).toList ↔ k = 250) ∧
        ∃ earlier told, run (mixture.take 6) (fun _ => .empty) = .ok (earlier, told) ∧
          (pool 2).toList = (earlier 0).toList := by
  have hUntouched : ∀ r ∈ mixture.drop 7, r.target ≠ 2 := by decide
  obtain ⟨pool, hRun, hAnswers, hCopy⟩ := run_implements mixture
  refine ⟨hUntouched, pool, hRun, ?_, hCopy (mixture.take 6) 2 0 (mixture.drop 7) rfl hUntouched⟩
  have hSet : described mixture (fun _ => ∅) 1 = {250} := by decide
  intro k
  rw [(hAnswers 1).mem, hSet, Finset.mem_singleton]

end ArmBackend.BitSet
