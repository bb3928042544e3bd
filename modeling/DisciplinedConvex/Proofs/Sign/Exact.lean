import DisciplinedConvex.Proofs.Arguments.Order
import DisciplinedConvex.Proofs.Sign.Basic

/-! # Signs say all that can be said

The operations on signs are not only right about numbers with these signs, they lose nothing.

* `Sign.numbers` are the integers that have a sign, and `Sign.Chosen` takes one for each sign of a
  list.
* `Sign.low` and `Sign.high` are integers that show which bounds a sign leaves open. A list of signs
  is put to the test by taking all of them at once (`Sign.Tests.exists_iff`, `Sign.Tests.forall_iff`).
* `Sign.Describes` says that a sign has a bound exactly if all numbers of a set keep it.
  `Sign.operations_describe` is the statement for all five operations.
-/

namespace DisciplinedConvex
set_option autoImplicit false

namespace Sign

/-! ## Integers with a sign -/

def numbers : Sign → Set ℤ
  | positive => {n | 0 ≤ n}
  | negative => {n | n ≤ 0}
  | zero => {0}
  | unknown => Set.univ

/-- One integer for each sign. -/
abbrev Chosen (signs : List Sign) (ns : List ℤ) : Prop :=
  List.Forall₂ (fun s n => n ∈ numbers s) signs ns

/-- All numbers of a set are nonnegative, or nonpositive, exactly if the sign says so. -/
structure Describes (s : Sign) (ns : Set ℤ) : Prop where
  nonneg_iff : s.isNonneg = true ↔ ∀ n ∈ ns, 0 ≤ n
  nonpos_iff : s.isNonpos = true ↔ ∀ n ∈ ns, n ≤ 0

variable {s t : Sign} {n : ℤ} {signs : List Sign} {ns : List ℤ}

theorem mem_numbers_iff_allows : n ∈ s.numbers ↔ s.Allows (n : ℚ) := by
  cases s <;> simp [numbers]

theorem nonneg_of_mem (h : n ∈ s.numbers) (hs : s.isNonneg = true) : 0 ≤ n :=
  Int.cast_nonneg_iff.1 ((mem_numbers_iff_allows.1 h).nonneg hs)

theorem nonpos_of_mem (h : n ∈ s.numbers) (hs : s.isNonpos = true) : n ≤ 0 :=
  Int.cast_nonpos.1 ((mem_numbers_iff_allows.1 h).nonpos hs)

/-- What remains to be shown of a sign that is right about all numbers. -/
theorem Describes.of_subset {ns : Set ℤ} (hmem : ∀ n ∈ ns, n ∈ s.numbers)
    (hnonneg : (∀ n ∈ ns, 0 ≤ n) → s.isNonneg = true)
    (hnonpos : (∀ n ∈ ns, n ≤ 0) → s.isNonpos = true) : s.Describes ns where
  nonneg_iff := ⟨fun hs n hn => nonneg_of_mem (hmem n hn) hs, hnonneg⟩
  nonpos_iff := ⟨fun hs n hn => nonpos_of_mem (hmem n hn) hs, hnonpos⟩

/-! ## Bounds that a sign leaves open -/

/-- A negative integer if there is one with the sign. -/
def low (s : Sign) : ℤ := if s.isNonneg then 0 else -1

/-- A positive integer if there is one with the sign. -/
def high (s : Sign) : ℤ := if s.isNonpos then 0 else 1

/-- What `p` says of a sign is true of all its numbers, and it is said if it is true of `worst`. -/
structure Tests (worst : Sign → ℤ) (p : Sign → Bool) (P : ℤ → Prop) : Prop where
  mem (s : Sign) : worst s ∈ s.numbers
  sound {s : Sign} {n : ℤ} : n ∈ s.numbers → p s = true → P n
  decisive {s : Sign} : P (worst s) → p s = true

theorem tests_low : Tests low isNonneg (0 ≤ ·) where
  mem s := by cases s <;> simp [low, isNonneg, numbers]
  sound := nonneg_of_mem
  decisive {s} := by cases s <;> decide

theorem tests_high : Tests high isNonpos (· ≤ 0) where
  mem s := by cases s <;> simp [high, isNonpos, numbers]
  sound := nonpos_of_mem
  decisive {s} := by cases s <;> decide

/-! ## Sums and products -/

theorem add_describes (s t : Sign) :
    (s.add t).Describes {n | ∃ a ∈ s.numbers, ∃ b ∈ t.numbers, a + b = n} := by
  refine .of_subset ?_ (fun h => ?_) (fun h => ?_)
  · rintro n ⟨a, ha, b, hb, rfl⟩
    rw [mem_numbers_iff_allows] at ha hb ⊢
    rw [Int.cast_add]
    exact ha.add hb
  · have hsum := h _ ⟨_, tests_low.mem s, _, tests_low.mem t, rfl⟩
    revert hsum
    cases s <;> cases t <;> decide
  · have hsum := h _ ⟨_, tests_high.mem s, _, tests_high.mem t, rfl⟩
    revert hsum
    cases s <;> cases t <;> decide

/-- A product is negative if the factors are at opposite ends. -/
theorem mul_describes (s t : Sign) :
    (s.mul t).Describes {n | ∃ a ∈ s.numbers, ∃ b ∈ t.numbers, a * b = n} := by
  refine .of_subset ?_ (fun h => ?_) (fun h => ?_)
  · rintro n ⟨a, ha, b, hb, rfl⟩
    rw [mem_numbers_iff_allows] at ha hb ⊢
    rw [Int.cast_mul]
    exact ha.mul hb
  · have hleft := h _ ⟨_, tests_low.mem s, _, tests_high.mem t, rfl⟩
    have hright := h _ ⟨_, tests_high.mem s, _, tests_low.mem t, rfl⟩
    revert hleft hright
    cases s <;> cases t <;> decide
  · have hlow := h _ ⟨_, tests_low.mem s, _, tests_low.mem t, rfl⟩
    have hhigh := h _ ⟨_, tests_high.mem s, _, tests_high.mem t, rfl⟩
    revert hlow hhigh
    cases s <;> cases t <;> decide

/-! ## Lists -/

namespace Tests

variable {worst : Sign → ℤ} {p : Sign → Bool} {P : ℤ → Prop}

theorem chosen (h : Tests worst p P) (signs : List Sign) : Chosen signs (signs.map worst) := by
  rw [Chosen, List.forall₂_map_right_iff, List.forall₂_same]
  exact fun s _ => h.mem s

theorem forall_iff (h : Tests worst p P) :
    (∀ s ∈ signs, p s = true) ↔ ∀ ns, Chosen signs ns → ∀ n ∈ ns, P n := by
  constructor
  · intro hp ns hns n hn
    obtain ⟨s, hs, hmem⟩ := exists_of_mem_right hns hn
    exact h.sound hmem (hp s hs)
  · intro hP s hs
    exact h.decisive (hP _ (h.chosen signs) _ (List.mem_map_of_mem hs))

theorem exists_iff (h : Tests worst p P) :
    (∃ s ∈ signs, p s = true) ↔ ∀ ns, Chosen signs ns → ∃ n ∈ ns, P n := by
  constructor
  · rintro ⟨s, hs, hp⟩ ns hns
    obtain ⟨n, hn, hmem⟩ := exists_of_mem_left hns hs
    exact ⟨n, hn, h.sound hmem hp⟩
  · intro hP
    -- With every sign at its worst, the number that passes names the sign that does.
    obtain ⟨n, hn, hPn⟩ := hP _ (h.chosen signs)
    obtain ⟨s, hs, rfl⟩ := List.mem_map.1 hn
    exact ⟨s, hs, h.decisive hPn⟩

theorem ite_iff {c : Prop} [Decidable c] (h : Tests worst p P) :
    (if c then ∃ s ∈ signs, p s = true else ∀ s ∈ signs, p s = true) ↔
      ∀ ns, Chosen signs ns → if c then ∃ n ∈ ns, P n else ∀ n ∈ ns, P n := by
  split
  · exact h.exists_iff
  · exact h.forall_iff

end Tests

end Sign

namespace Variadic

/-- What an atom may make of a list of integers: the largest, the smallest, or any of them. -/
def outcomes (op : Variadic) (ns : List ℤ) : Set ℤ :=
  match op with
  | maximum => {m | ns.max? = some m}
  | minimum => {m | ns.min? = some m}
  | vstack | hstack => {n | n ∈ ns}

variable {op : Variadic} {ns : List ℤ}

theorem nonneg_outcomes_iff (hne : ns ≠ []) : (∀ m ∈ op.outcomes ns, 0 ≤ m) ↔
    if op = maximum then ∃ n ∈ ns, 0 ≤ n else ∀ n ∈ ns, 0 ≤ n := by
  cases op with
  | vstack => exact Iff.rfl
  | hstack => exact Iff.rfl
  | maximum =>
    constructor
    · intro h
      exact ⟨ns.max hne, List.max_mem hne, h _ (List.max?_eq_some_max hne)⟩
    · rintro ⟨n, hn, h0⟩ m hm
      exact h0.trans ((List.max?_eq_some_iff.1 hm).2 n hn)
  | minimum =>
    constructor
    · intro h
      exact (List.le_min_iff hne).1 (h _ (List.min?_eq_some_min hne))
    · intro h m hm
      exact h m (List.min?_eq_some_iff.1 hm).1

theorem nonpos_outcomes_iff (hne : ns ≠ []) : (∀ m ∈ op.outcomes ns, m ≤ 0) ↔
    if op = minimum then ∃ n ∈ ns, n ≤ 0 else ∀ n ∈ ns, n ≤ 0 := by
  cases op with
  | vstack => exact Iff.rfl
  | hstack => exact Iff.rfl
  | maximum =>
    constructor
    · intro h
      exact (List.max_le_iff hne).1 (h _ (List.max?_eq_some_max hne))
    · intro h m hm
      exact h m (List.max?_eq_some_iff.1 hm).1
  | minimum =>
    constructor
    · intro h
      exact ⟨ns.min hne, List.min_mem hne, h _ (List.min?_eq_some_min hne)⟩
    · rintro ⟨n, hn, h0⟩ m hm
      exact ((List.min?_eq_some_iff.1 hm).2 n hn).trans h0

theorem sign_describes (op : Variadic) {signs : List Sign} (hne : signs ≠ []) :
    (op.sign signs).Describes {m | ∃ ns, Sign.Chosen signs ns ∧ m ∈ op.outcomes ns} := by
  have hchosen : ∀ ns, Sign.Chosen signs ns → ns ≠ [] := by
    rintro ns hns rfl
    exact hne (List.forall₂_nil_right_iff.1 hns)
  have houtcomes : ∀ P : ℤ → Prop,
      (∀ m ∈ {m | ∃ ns, Sign.Chosen signs ns ∧ m ∈ op.outcomes ns}, P m) ↔
        ∀ ns, Sign.Chosen signs ns → ∀ m ∈ op.outcomes ns, P m := by
    intro P
    constructor
    · intro h ns hns m hm
      exact h m ⟨ns, hns, hm⟩
    · rintro h m ⟨ns, hns, hm⟩
      exact h ns hns m hm
  -- A largest number is nonnegative if one of the list is, and nonpositive if all are; a smallest
  -- one the other way around. The signs are asked the same questions.
  constructor
  · rw [isNonneg_sign hne, Sign.tests_low.ite_iff, houtcomes (0 ≤ ·)]
    exact forall₂_congr fun ns hns => (nonneg_outcomes_iff (hchosen ns hns)).symm
  · rw [isNonpos_sign hne, Sign.tests_high.ite_iff, houtcomes (· ≤ 0)]
    exact forall₂_congr fun ns hns => (nonpos_outcomes_iff (hchosen ns hns)).symm

end Variadic

namespace Sign

/-- A sum, a product, a largest or a smallest number, or any number of a list: the sign that is
found for it is nonnegative, or nonpositive, if and only if this is so for all integers with the
given signs. -/
theorem operations_describe :
    (∀ s t : Sign, (s.add t).Describes {n | ∃ a ∈ s.numbers, ∃ b ∈ t.numbers, a + b = n}) ∧
    (∀ s t : Sign, (s.mul t).Describes {n | ∃ a ∈ s.numbers, ∃ b ∈ t.numbers, a * b = n}) ∧
    ∀ (s : Sign) (signs : List Sign),
      (maximum (s :: signs)).Describes {m | ∃ ns, Chosen (s :: signs) ns ∧ ns.max? = some m} ∧
      (minimum (s :: signs)).Describes {m | ∃ ns, Chosen (s :: signs) ns ∧ ns.min? = some m} ∧
      (union (s :: signs)).Describes {n | ∃ ns, Chosen (s :: signs) ns ∧ n ∈ ns} :=
  ⟨add_describes, mul_describes, fun s signs =>
    ⟨Variadic.sign_describes .maximum (List.cons_ne_nil s signs),
      Variadic.sign_describes .minimum (List.cons_ne_nil s signs),
      Variadic.sign_describes .vstack (List.cons_ne_nil s signs)⟩⟩

end Sign

end DisciplinedConvex
