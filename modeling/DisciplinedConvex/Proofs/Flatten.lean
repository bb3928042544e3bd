import Mathlib.Data.List.TFAE
import Mathlib.Tactic.TFAE
import DisciplinedConvex.Proofs.Checked

/-! # Columns of all entries

`Expr.flatten` writes the shape of its column down without a check, and counts the entries with
`Shape.size`, which stops at the largest word. `Expr.reshape` counts them with `Shape.checkedSize?`.

* `Unary.shape?_reshape` says when a reshape passes its check, and `Expr.reshape_eq` what it makes.
* `Expr.flatten_tfae` says that the two agree if and only if the entries can be counted in a word.
  Otherwise no reshape is accepted, and the column is too short (`Expr.flatten_huge_too_short`).
-/

namespace DisciplinedConvex
set_option autoImplicit false

/-! ## The check of a reshape -/

/-- Both numbers of entries have to fit in a word. -/
theorem Unary.shape?_reshape (target s : Shape) : (reshape target).shape? s =
    if target.count = s.count ∧ s.count < UInt64.size then .ok target
    else .error (.reshape s target) := by
  unfold shape? Shape.checkedSize?
  by_cases hs : s.count < UInt64.size
  · by_cases ht : target.count < UInt64.size
    · have hword : UInt64.ofNat target.count = .ofNat s.count ↔ target.count = s.count := by
        rw [← UInt64.toNat_inj, UInt64.toNat_ofNat', UInt64.toNat_ofNat', Nat.mod_eq_of_lt ht,
          Nat.mod_eq_of_lt hs]
      simp [hs, ht, hword]
    · have hne : ¬ target.count = s.count := fun heq => ht (heq ▸ hs)
      simp [ht, hne]
  · simp [hs]

/-! ## Counting the entries -/

namespace Shape

theorem size_of_lt {s : Shape} (h : s.count < UInt64.size) : s.size = .ofNat s.count := by
  rw [size, Nat.min_eq_left (Nat.le_sub_one_of_lt h)]

theorem toNat_size_of_le {s : Shape} (h : UInt64.size ≤ s.count) :
    s.size.toNat = UInt64.size - 1 := by
  rw [size, Nat.min_eq_right (Nat.sub_le_of_le_add (Nat.le_add_right_of_le h)),
    UInt64.toNat_ofNat_of_lt' (by decide)]

theorem count_vector (n : UInt64) : (vector n).count = n.toNat := Nat.mul_one _

theorem count_vector_ofNat {n : Nat} (h : n < UInt64.size) : (vector (.ofNat n)).count = n := by
  rw [count_vector, UInt64.toNat_ofNat_of_lt' h]

theorem count_vector_size_iff {s : Shape} :
    (vector s.size).count = s.count ↔ s.count < UInt64.size := by
  by_cases h : s.count < UInt64.size
  · rw [size_of_lt h, count_vector_ofNat h]
    exact iff_of_true rfl h
  · rw [count_vector, toNat_size_of_le (Nat.le_of_not_lt h)]
    have hpos : 0 < UInt64.size := by decide
    omega

end Shape

namespace Expr

theorem validate_reshape (x : Expr) (target : Shape) :
    validate (.unary (.reshape target)) [x] =
      if target.count = x.shape.count ∧ x.shape.count < UInt64.size then .ok target
      else .error (.shape (.reshape x.shape target)) := by
  change ((Unary.reshape target).shape? x.shape).mapError Error.shape = _
  rw [Unary.shape?_reshape]
  split <;> rfl

theorem reshape_eq (x : Expr) (target : Shape) : x.reshape target =
    if target.count = x.shape.count ∧ x.shape.count < UInt64.size then
      .ok (unary none (.reshape target) x)
    else .error (.shape (.reshape x.shape target)) := by
  change (validate (.unary (.reshape target)) [x]).map (fun _ => unary none _ x) = _
  rw [validate_reshape]
  split <;> rfl

/-- If the entries can be counted in a word, then `flatten` makes what the checked reshape into a
column of all entries makes: its atom passes the check with the shape that was written down, and no
entry is lost. If they cannot, then none of this is true, and no reshape at all is accepted. -/
theorem flatten_tfae (x : Expr) : List.TFAE [
    x.shape.count < UInt64.size,
    x.reshape (.vector (.ofNat x.shape.count)) = .ok x.flatten,
    validate (.unary (.reshape (.vector x.shape.size))) [x] = .ok x.flatten.shape,
    x.flatten.shape.count = x.shape.count,
    ∃ target e, x.reshape target = .ok e] := by
  tfae_have 1 → 2 := by
    intro h
    rw [reshape_eq, if_pos ⟨Shape.count_vector_ofNat h, h⟩, flatten, Shape.size_of_lt h]
  tfae_have 2 → 5 := fun h => ⟨_, _, h⟩
  tfae_have 5 → 1 := by
    rintro ⟨target, e, h⟩
    rw [reshape_eq] at h
    split at h
    case isTrue hcount => exact hcount.2
    case isFalse => cases h
  tfae_have 1 ↔ 4 := Shape.count_vector_size_iff.symm
  tfae_have 1 ↔ 3 := by
    simp only [validate_reshape, Shape.count_vector_size_iff, and_self]
    split
    case isTrue h => exact iff_of_true h rfl
    case isFalse h =>
      refine iff_of_false h fun heq => ?_
      cases heq
  tfae_finish

/-- One entry more than a word can count: the column has the largest word for its rows, and the
check refuses it. -/
theorem flatten_huge_too_short :
    huge.flatten.shape = ⟨0xFFFFFFFFFFFFFFFF, 1⟩ ∧
    huge.flatten.shape.count + 1 = huge.shape.count ∧
    huge.flatten.reapply =
      some (.error (.shape (.reshape huge.shape ⟨0xFFFFFFFFFFFFFFFF, 1⟩))) := by
  have hcount : ¬ huge.shape.count < UInt64.size := by decide +kernel
  have hshape : huge.flatten.shape = ⟨0xFFFFFFFFFFFFFFFF, 1⟩ := by decide +kernel
  refine ⟨hshape, by decide +kernel, ?_⟩
  change some (huge.reshape huge.flatten.shape) = _
  rw [reshape_eq, if_neg (hcount ·.2), hshape]

end Expr

end DisciplinedConvex
