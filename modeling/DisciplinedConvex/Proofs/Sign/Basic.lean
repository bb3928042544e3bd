import DisciplinedConvex.Proofs.Meaning.Expr
import DisciplinedConvex.Proofs.Storage.Positions

/-! # What signs say of numbers

* Each operation on signs carries what they say through the operation on numbers
  (`Sign.Allows.add`, `Sign.Allows.mul`, `Sign.Allows.sum`, …).
* `Value.sign_allows` says that the sign of a constant is that of its entries.
-/

namespace DisciplinedConvex
set_option autoImplicit false

variable {K : Type*} [Field K] [LinearOrder K]

namespace Sign

variable {s t : Sign} {a b : K}

/-! ## The four signs -/

@[simp] theorem allows_positive : positive.Allows a ↔ 0 ≤ a :=
  ⟨fun h => h.nonneg rfl, fun h => ⟨fun _ => h, (nomatch ·)⟩⟩

@[simp] theorem allows_negative : negative.Allows a ↔ a ≤ 0 :=
  ⟨fun h => h.nonpos rfl, fun h => ⟨(nomatch ·), fun _ => h⟩⟩

@[simp] theorem allows_zero : zero.Allows a ↔ a = 0 := by
  constructor
  · intro h
    exact le_antisymm (h.nonpos rfl) (h.nonneg rfl)
  · intro h
    exact ⟨fun _ => h.ge, fun _ => h.le⟩

@[simp] theorem allows_unknown : unknown.Allows a :=
  ⟨(nomatch ·), (nomatch ·)⟩

theorem allows_ofBounds {p q : Bool} :
    (ofBounds p q).Allows a ↔ (p = true → 0 ≤ a) ∧ (q = true → a ≤ 0) := by
  constructor
  · rintro ⟨hp, hq⟩
    rw [isNonneg_ofBounds] at hp
    rw [isNonpos_ofBounds] at hq
    exact ⟨hp, hq⟩
  · rintro ⟨hp, hq⟩
    exact ⟨by rwa [isNonneg_ofBounds], by rwa [isNonpos_ofBounds]⟩

theorem allows_magnitude (ha : 0 ≤ a) (h0 : s = zero → a = 0) : s.magnitude.Allows a := by
  cases s with
  | zero => exact allows_zero.2 (h0 rfl)
  | positive => exact allows_positive.2 ha
  | negative => exact allows_positive.2 ha
  | unknown => exact allows_positive.2 ha

/-! ## Operations -/

variable [IsStrictOrderedRing K]

theorem Allows.neg (h : s.Allows a) : s.negate.Allows (-a) := by
  constructor
  · rw [isNonneg_negate]
    intro hs
    exact neg_nonneg.2 (h.nonpos hs)
  · rw [isNonpos_negate]
    intro hs
    exact neg_nonpos.2 (h.nonneg hs)

theorem Allows.add (ha : s.Allows a) (hb : t.Allows b) : (s.add t).Allows (a + b) := by
  cases s <;> cases t <;> simp only [Sign.add, allows_positive, allows_negative, allows_zero,
    allows_unknown] at ha hb ⊢ <;> linarith

theorem Allows.mul (ha : s.Allows a) (hb : t.Allows b) : (s.mul t).Allows (a * b) := by
  cases s <;> cases t <;> simp only [Sign.mul, allows_positive, allows_negative, allows_zero,
    allows_unknown] at ha hb ⊢
  case positive.positive => exact mul_nonneg ha hb
  case positive.negative => exact mul_nonpos_of_nonneg_of_nonpos ha hb
  case negative.positive => exact mul_nonpos_of_nonpos_of_nonneg ha hb
  case negative.negative => exact mul_nonneg_of_nonpos_of_nonpos ha hb
  all_goals simp [*]

theorem Allows.sum {ι : Type*} {f : ι → K} {u : Finset ι} (h : ∀ i ∈ u, s.Allows (f i)) :
    s.Allows (∑ i ∈ u, f i) := by
  constructor
  · intro hs
    exact Finset.sum_nonneg fun i hi => (h i hi).nonneg hs
  · intro hs
    exact Finset.sum_nonpos fun i hi => (h i hi).nonpos hs

end Sign

/-! ## Constants -/

namespace Value

/-- The sign of finite entries is that of each of them. -/
theorem ofEntries_allows [IsStrictOrderedRing K] {rows cols : ℕ} {entry : ℕ → ℕ → Float}
    (hfin : ∀ i < rows, ∀ j < cols, (entry i j).isFinite = true) {i j : ℕ} (hi : i < rows)
    (hj : j < cols) :
    (Sign.ofEntries rows cols entry).Allows (Number.exact (entry i j) : K) := by
  have hentry := hfin i hi j hj
  unfold Sign.ofEntries
  split
  case isTrue h0 =>
    have heq := h0 i hi j hj
    rw [Number.beq_iff hentry Number.isFinite_zero, Number.exact_zero] at heq
    rw [heq]
    exact Sign.allows_zero.2 Rat.cast_zero
  split
  case isTrue hpos =>
    have hlt := hpos i hi j hj
    rw [gt_iff_lt, Number.lt_iff Number.isFinite_zero hentry, Number.exact_zero] at hlt
    exact Sign.allows_positive.2 (by exact_mod_cast hlt.le)
  split
  case isTrue hneg =>
    have hlt := hneg i hi j hj
    rw [Number.lt_iff hentry Number.isFinite_zero, Number.exact_zero] at hlt
    exact Sign.allows_negative.2 (by exact_mod_cast hlt.le)
  case isFalse => exact Sign.allows_unknown

/-- A sign that is found is that of every entry, and none is unknown. -/
theorem sign_allows [IsStrictOrderedRing K] {v : Value}
    (hfin : ∀ i < v.shape.rows.toNat, ∀ j < v.shape.cols.toNat, (v.entry i j).isFinite = true) :
    (v.table K).All v.sign.Allows := by
  rintro ⟨i, j⟩ hp
  obtain ⟨hi, hj⟩ := Table.mem_positions.1 hp
  rcases v.answers_or_overflows with h | h
  · rw [sign, h.sign?_eq]
    exact ofEntries_allows hfin hi hj
  · rw [sign, sign?_of_error h]
    exact Sign.allows_unknown

end Value

end DisciplinedConvex
