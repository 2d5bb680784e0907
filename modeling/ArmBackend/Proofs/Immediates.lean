import ArmBackend.Stream.Basic
import Mathlib.Data.List.Induction

/-!
# The table of immediates

Constants are filed one after another. The table is searched for an entry that is the same, doubles
being compared as numbers and also by their bits, which are the integer of their entry. So zeros of
different sign are kept apart, and what is not a number never finds itself.

## Results

* `Constant.sameEntry_entry` — two filed constants are the same entry if they are the same constant
  and numbers.
* `Stream.Filed.file` — one more constant keeps the calls and the table in line.
* `Stream.calls_filed` — what a sequence of calls returns, and what the table holds all the while.
-/

namespace ArmBackend

theorem Double.eq_self (x : Double) : x.eq x = !x.isNaN := by
  unfold Double.eq Double.ordered
  simp

/-! ## Entries -/

namespace Constant

variable {c d : Constant}

/-- Whether only the field that the kind of a constant names is set. -/
def IsPlain (c : Constant) : Prop :=
  match c.tag with
  | .of .int32 | .of .int64 => c.float = .zero false ∧ c.name = ""
  | .of .float64 => c.int = 0 ∧ c.name = ""
  | .of .heap | .of .external => c.int = 0 ∧ c.float = .zero false
  | .unassigned _ => False

instance : DecidablePred IsPlain
  | ⟨.of .int32, _, _, _⟩ | ⟨.of .int64, _, _, _⟩ | ⟨.of .float64, _, _, _⟩
  | ⟨.of .heap, _, _, _⟩ | ⟨.of .external, _, _, _⟩ => inferInstanceAs (Decidable (_ ∧ _))
  | ⟨.unassigned _, _, _, _⟩ => inferInstanceAs (Decidable False)

/-- A constant as it is filed: the integer of a double is its bits. -/
def filed (c : Constant) : Constant :=
  { c with int := if c.tag = .of .float64 then c.float.bits.toInt else c.int }

theorem immediateEntry_eq (c : Constant) : Stream.immediateEntry c = c.filed := by
  unfold Stream.immediateEntry filed
  split <;> rfl

/-- A constant that is no double has the double zero. -/
theorem IsPlain.float_eq (h : c.IsPlain) (hTag : c.tag ≠ .of .float64) : c.float = .zero false := by
  unfold IsPlain at h
  split at h
  · exact h.1
  · exact h.1
  · next hDouble => exact absurd hDouble hTag
  · exact h.2
  · exact h.2
  · exact h.elim

/-- A double has the integer zero. -/
theorem IsPlain.int_eq (h : c.IsPlain) (hTag : c.tag = .of .float64) : c.int = 0 := by
  unfold IsPlain at h
  rw [hTag] at h
  exact h.1

/-- Filing changes the integer of a double only, and loses nothing by it. -/
theorem filed_injective (hc : c.IsPlain) (hd : d.IsPlain) (hTag : c.tag = d.tag)
    (hInt : c.filed.int = d.filed.int) (hName : c.name = d.name) : c = d := by
  unfold filed at hInt
  by_cases hDouble : c.tag = .of .float64
  · have hDouble' : d.tag = .of .float64 := hTag ▸ hDouble
    rw [if_pos hDouble, if_pos hDouble'] at hInt
    have hFloat : c.float = d.float := congrArg Double.mk (BitVec.toInt_inj.mp hInt)
    have hZero : c.int = d.int := by rw [hc.int_eq hDouble, hd.int_eq hDouble']
    cases c
    cases d
    simp_all
  · -- Neither is a double, so the integers are their own.
    have hDouble' : d.tag ≠ .of .float64 := hTag ▸ hDouble
    rw [if_neg hDouble, if_neg hDouble'] at hInt
    have hFloat : c.float = d.float := by rw [hc.float_eq hDouble, hd.float_eq hDouble']
    cases c
    cases d
    simp_all

/-- Two filed constants are the same entry if they are the same constant and numbers. -/
theorem sameEntry_entry (hc : c.IsPlain) (hd : d.IsPlain) :
    c.filed.sameEntry d.filed = true ↔ c = d ∧ c.float.isNaN = false := by
  unfold sameEntry
  rw [Bool.and_eq_true, Bool.and_eq_true, Bool.and_eq_true, beq_iff_eq, beq_iff_eq, beq_iff_eq]
  constructor
  · rintro ⟨⟨⟨hTag, hInt⟩, hFloat⟩, hName⟩
    obtain rfl := filed_injective hc hd hTag hInt hName
    have hSelf : c.float.eq c.float = true := hFloat
    rw [Double.eq_self] at hSelf
    exact ⟨rfl, by simpa using hSelf⟩
  · rintro ⟨rfl, hNumber⟩
    have hSelf : c.float.eq c.float = true := by rw [Double.eq_self, hNumber]; rfl
    exact ⟨⟨⟨rfl, rfl⟩, hSelf⟩, rfl⟩

end Constant

/-! ## Calls -/

namespace Stream

variable {s : Stream} {c : Constant} {made : List (Constant × Nat)} {table : List Constant} {i : Nat}

/-- The stream after constants were filed one after another. -/
def fileAll : List Constant → Stream → Stream
  | [], s => s
  | c :: rest, s => fileAll rest (s.addImmediate c).1

/-- The calls that file constants: each constant with the index that is returned for it. -/
def calls : List Constant → Stream → List (Constant × Nat)
  | [], _ => []
  | c :: rest, s => (c, (s.addImmediate c).2) :: calls rest (s.addImmediate c).1

theorem fileAll_append (now later : List Constant) (s : Stream) :
    fileAll (now ++ later) s = fileAll later (fileAll now s) := by
  induction now generalizing s with
  | nil => rfl
  | cons c rest ih => exact ih _

theorem calls_append (now later : List Constant) (s : Stream) :
    calls (now ++ later) s = calls now s ++ calls later (fileAll now s) := by
  induction now generalizing s with
  | nil => rfl
  | cons c rest ih => exact congrArg _ (ih _)

theorem map_fst_calls (cs : List Constant) (s : Stream) : (calls cs s).map Prod.fst = cs := by
  induction cs generalizing s with
  | nil => rfl
  | cons c rest ih => exact congrArg _ (ih _)

/-- Whether calls and the table that they have made are in line: every index leads to its constant,
every entry was asked for, entries are never the same, and calls share an index just if their
constants are the same entry. -/
structure Filed (made : List (Constant × Nat)) (table : List Constant) : Prop where
  plain : ∀ a ∈ made, a.1.IsPlain
  resolves : ∀ a ∈ made, table[a.2]? = some a.1.filed
  asked : ∀ i < table.length, ∃ a ∈ made, a.2 = i
  distinct : table.Pairwise fun x y => x.sameEntry y = false
  shared : made.Pairwise fun a b => a.2 = b.2 ↔ a.1.filed.sameEntry b.1.filed = true

namespace Filed

theorem empty : Filed [] [] :=
  ⟨nofun, nofun, nofun, .nil, .nil⟩

theorem lt (h : Filed made table) {a : Constant × Nat} (ha : a ∈ made) : a.2 < table.length :=
  (List.getElem?_eq_some_iff.mp (h.resolves a ha)).1

/-- An entry that was found for a constant is that constant, and a number. -/
theorem found (h : Filed made table) (hc : c.IsPlain) (hi : i < table.length)
    (hSame : table[i].sameEntry c.filed = true) :
    table[i] = c.filed ∧ c.float.isNaN = false := by
  obtain ⟨a, ha, rfl⟩ := h.asked i hi
  have hEntry : table[a.2] = a.1.filed :=
    Option.some.inj ((List.getElem?_eq_getElem hi).symm.trans (h.resolves a ha))
  rw [hEntry] at hSame ⊢
  obtain ⟨hEq, hNumber⟩ := (Constant.sameEntry_entry (h.plain a ha) hc).mp hSame
  exact ⟨congrArg _ hEq, hEq ▸ hNumber⟩

/-- A number stands at one place of the table only. -/
theorem place_unique (h : Filed made table) (hc : c.IsPlain) (hNumber : c.float.isNaN = false)
    {j : Nat} (hi : table[i]? = some c.filed) (hj : table[j]? = some c.filed) : i = j := by
  have hSame : c.filed.sameEntry c.filed = true :=
    (Constant.sameEntry_entry hc hc).mpr ⟨rfl, hNumber⟩
  obtain ⟨hiLt, hiEq⟩ := List.getElem?_eq_some_iff.mp hi
  obtain ⟨hjLt, hjEq⟩ := List.getElem?_eq_some_iff.mp hj
  -- Two places would hold entries that are the same.
  have hDistinct := List.pairwise_iff_getElem.mp h.distinct
  rcases Nat.lt_trichotomy i j with hLt | hEq | hLt
  · have hFalse := hDistinct i j hiLt hjLt hLt
    rw [hiEq, hjEq, hSame] at hFalse
    cases hFalse
  · exact hEq
  · have hFalse := hDistinct j i hjLt hiLt hLt
    rw [hiEq, hjEq, hSame] at hFalse
    cases hFalse

/-- A constant that the table has. -/
theorem again (h : Filed made table) (hc : c.IsPlain) (hi : i < table.length)
    (hSame : table[i].sameEntry c.filed = true) : Filed (made ++ [(c, i)]) table := by
  obtain ⟨hEntry, hNumber⟩ := h.found hc hi hSame
  have hPlace : table[i]? = some c.filed := by rw [List.getElem?_eq_getElem hi, hEntry]
  refine
    { plain := List.forall_mem_append.mpr ⟨h.plain, List.forall_mem_singleton.mpr hc⟩
      resolves := List.forall_mem_append.mpr ⟨h.resolves, List.forall_mem_singleton.mpr hPlace⟩
      asked := ?asked
      distinct := h.distinct
      shared := ?shared }
  -- Each entry was asked for before.
  case asked =>
    intro j hj
    obtain ⟨a, ha, hIndex⟩ := h.asked j hj
    exact ⟨a, List.mem_append_left _ ha, hIndex⟩
  -- The new call shares an entry exactly with the calls for the same constant.
  case shared =>
    refine List.pairwise_append.mpr ⟨h.shared, List.pairwise_singleton _ _, ?_⟩
    intro a ha b hb
    rw [List.mem_singleton.mp hb]
    have hOther := h.resolves a ha
    rw [Constant.sameEntry_entry (h.plain a ha) hc]
    constructor
    · rintro (rfl : a.2 = i)
      have hFiled : a.1.filed = c.filed := Option.some.inj (hOther.symm.trans hPlace)
      have hTag := congrArg Constant.tag hFiled
      have hInt := congrArg Constant.int hFiled
      have hName := congrArg Constant.name hFiled
      have hEq : a.1 = c := Constant.filed_injective (h.plain a ha) hc hTag hInt hName
      exact ⟨hEq, hEq ▸ hNumber⟩
    · rintro ⟨hEq, -⟩
      rw [hEq] at hOther
      exact h.place_unique hc hNumber hOther hPlace

/-- A constant that the table does not have. It may be one that was filed before, if it is not a
number. -/
theorem fresh (h : Filed made table) (hc : c.IsPlain)
    (hNone : ∀ old ∈ table, old.sameEntry c.filed = false) :
    Filed (made ++ [(c, table.length)]) (table ++ [c.filed]) := by
  have hOld : ∀ a ∈ made, (table ++ [c.filed])[a.2]? = some a.1.filed := by
    intro a ha
    rw [List.getElem?_append_left (h.lt ha)]
    exact h.resolves a ha
  refine
    { plain := List.forall_mem_append.mpr ⟨h.plain, List.forall_mem_singleton.mpr hc⟩
      resolves := List.forall_mem_append.mpr
        ⟨hOld, List.forall_mem_singleton.mpr List.getElem?_concat_length⟩
      asked := ?asked
      distinct := ?distinct
      shared := ?shared }
  case asked =>
    intro j hj
    rw [List.length_append, List.length_singleton] at hj
    by_cases hLt : j < table.length
    · obtain ⟨a, ha, hIndex⟩ := h.asked j hLt
      exact ⟨a, List.mem_append_left _ ha, hIndex⟩
    · exact ⟨(c, table.length), List.mem_append_right _ List.mem_cons_self, by omega⟩
  case distinct =>
    refine List.pairwise_append.mpr ⟨h.distinct, List.pairwise_singleton _ _, ?_⟩
    intro old hOld new hNew
    rw [List.mem_singleton.mp hNew]
    exact hNone old hOld
  case shared =>
    -- The index is new, and no constant filed so far was found to be the same.
    refine List.pairwise_append.mpr ⟨h.shared, List.pairwise_singleton _ _, ?_⟩
    intro a ha b hb
    rw [List.mem_singleton.mp hb, hNone _ (List.mem_of_getElem? (h.resolves a ha))]
    exact iff_of_false (Nat.ne_of_lt (h.lt ha)) nofun

/-- One more constant keeps the calls and the table in line. -/
theorem file (h : Filed made s.immediates) (hc : c.IsPlain) :
    Filed (made ++ [(c, (s.addImmediate c).2)]) (s.addImmediate c).1.immediates := by
  unfold addImmediate
  rw [Constant.immediateEntry_eq]
  dsimp only
  cases hFind : s.immediates.findIdx? fun old => old.sameEntry c.filed with
  | none =>
    refine h.fresh hc fun old hOld => ?_
    simpa using List.findIdx?_eq_none_iff.mp hFind old hOld
  | some i =>
    obtain ⟨hLt, hSame, -⟩ := List.findIdx?_eq_some_iff_getElem.mp hFind
    exact h.again hc hLt hSame

end Filed

/-- A sequence of calls on a new stream keeps the calls and the table in line. -/
theorem filed_calls (cs : List Constant) (hPlain : ∀ c ∈ cs, c.IsPlain) :
    Filed (calls cs {}) (fileAll cs {}).immediates := by
  -- From the end of the list: a call is compared with all those that were made before it.
  induction cs using List.reverseRecOn with
  | nil => exact .empty
  | append_singleton cs c ih =>
    rw [calls_append, fileAll_append]
    exact (ih fun d hd => hPlain d (List.mem_append_left _ hd)).file
      (hPlain c (List.mem_append_right _ List.mem_cons_self))

/-- Filing a constant leaves the entries of the table where they are. -/
theorem immediates_addImmediate (s : Stream) (c : Constant) :
    s.immediates <+: (s.addImmediate c).1.immediates := by
  unfold addImmediate
  dsimp only
  split
  · exact List.prefix_rfl
  · exact List.prefix_append _ _

theorem immediates_fileAll (cs : List Constant) (s : Stream) :
    s.immediates <+: (fileAll cs s).immediates := by
  induction cs generalizing s with
  | nil => exact List.prefix_rfl
  | cons c rest ih => exact (immediates_addImmediate s c).trans (ih _)

theorem toConstant_immediate (s : Stream) (i : Nat) (h : s.immediates[i]? = some c) :
    s.toConstant (.immediate i) = .ok c := by
  unfold toConstant immediate
  dsimp only
  rw [if_neg (Int.not_lt.mpr (Int.natCast_nonneg i)), Int.toNat_natCast, h]

/-- What a sequence of calls on a new stream returns. At every moment the calls so far have their
final indices and the entries so far their final places, every index leads to the constant it was
returned for, a double with its bits as integer, and the table holds nothing else. Two calls share
an index just if they are for the same constant and that is a number. -/
theorem calls_filed {cs : List Constant} (hPlain : ∀ c ∈ cs, c.IsPlain) :
    (calls cs {}).map Prod.fst = cs ∧
      (∀ now later, cs = now ++ later →
        calls now {} <+: calls cs {} ∧
        (fileAll now {}).immediates <+: (fileAll cs {}).immediates ∧
        (∀ c i, (c, i) ∈ calls now {} →
          (fileAll now {}).toConstant (.immediate i) = .ok c.filed) ∧
        ∀ i, i < (fileAll now {}).immediates.length ↔ ∃ c, (c, i) ∈ calls now {}) ∧
      (calls cs {}).Pairwise fun a b => a.2 = b.2 ↔ a.1 = b.1 ∧ a.1.float.isNaN = false := by
  refine ⟨map_fst_calls cs {}, ?_, ?_⟩
  · rintro now later rfl
    have hNow := filed_calls now fun c hc => hPlain c (List.mem_append_left _ hc)
    refine ⟨?_, ?_, ?_, ?_⟩
    · -- Later calls add entries behind those that are there.
      rw [calls_append]
      exact List.prefix_append _ _
    · rw [fileAll_append]
      exact immediates_fileAll _ _
    · intro c i hCall
      exact toConstant_immediate _ i (hNow.resolves _ hCall)
    · intro i
      constructor
      · intro hi
        obtain ⟨⟨c, j⟩, hCall, rfl⟩ := hNow.asked i hi
        exact ⟨c, hCall⟩
      · rintro ⟨c, hCall⟩
        exact hNow.lt hCall
  · -- Two calls share an entry exactly if they ask for the same constant, unless it is no number.
    have hAll := filed_calls cs hPlain
    refine hAll.shared.imp_of_mem fun {a b} ha hb hab => ?_
    rw [hab, Constant.sameEntry_entry (hAll.plain a ha) (hAll.plain b hb)]

/-- Zeros of either sign, what is not a number asked for twice, and an integer asked for again. -/
def repeats : List Constant :=
  [.ofInt32 5, { tag := .of .float64, float := .zero false },
    { tag := .of .float64, float := .zero true }, { tag := .of .float64, float := .nan },
    { tag := .of .float64, float := .nan }, .ofInt32 5, { tag := .of .heap, name := "true" },
    { tag := .of .external, name := "true" }]

theorem calls_filed_repeats :
    (∀ c ∈ repeats, c.IsPlain) ∧ (calls repeats {}).map Prod.snd = [0, 1, 2, 3, 4, 0, 5, 6] ∧
      (calls repeats {}).Pairwise fun a b => a.2 = b.2 ↔ a.1 = b.1 ∧ a.1.float.isNaN = false :=
  ⟨by decide, by decide, (calls_filed (by decide : ∀ c ∈ repeats, c.IsPlain)).2.2⟩

end Stream
end ArmBackend
