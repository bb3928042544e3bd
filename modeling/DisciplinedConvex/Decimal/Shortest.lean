/-! # Shortest decimals

The decimal with the fewest digits that still reads back as a given binary number.

* `Decimal` is a coefficient times a power of ten.
* `Neighbourhood` is the interval of numbers that round to the binary number, in whole units of a
  power of ten, with the number itself in it. Its ends belong to it when the significand is even.
* `Neighbourhood.coarsest` finds the largest power of ten of which some multiple lies in the
  interval. A coarser grid means fewer digits, and on grid zero the number itself is a multiple.
* `Decimal.shortest` puts these together for `m * 2 ^ e`.

The multiple that is found lies in the interval (`Neighbourhood.contains_coarsest`), and no coarser
grid meets it (`Neighbourhood.not_contains_of_coarser`).
-/

namespace DisciplinedConvex
set_option autoImplicit false

/-- The number `digits * 10 ^ exponent`. -/
structure Decimal where
  digits : Nat
  exponent : Int
  deriving DecidableEq, Repr

/-- The interval of numbers that round to `mid`. -/
structure Neighbourhood where
  low : Nat
  mid : Nat
  high : Nat
  /-- The two ends round to `mid` as well. -/
  closed : Bool
  deriving DecidableEq, Repr

namespace Neighbourhood

def contains (n : Neighbourhood) (x : Nat) : Bool :=
  if n.closed then n.low ≤ x && x ≤ n.high else n.low < x && x < n.high

/-- The multiple of `step` in the interval that is nearest to `mid`, as a coefficient. Of two
equally near ones it is the larger. -/
def nearestMultiple? (n : Neighbourhood) (step : Nat) : Option Nat :=
  let below := n.mid / step
  let above := below + 1
  match n.contains (below * step), n.contains (above * step) with
  | true, true =>
    if n.mid - below * step < above * step - n.mid then some below else some above
  | true, false => some below
  | false, true => some above
  | false, false => none

/-- The coefficient and the exponent on the coarsest grid `10 ^ k`, `k ≤ bound`, that meets the
interval. -/
def coarsest (n : Neighbourhood) : Nat → Nat × Nat
  | 0 => (n.mid, 0)
  | k + 1 =>
    match n.nearestMultiple? (Nat.pow 10 (k + 1)) with
    | some digits => (digits, k + 1)
    | none => n.coarsest k

/-- The interval around `m * 2 ^ e` in quarters of a unit in the last place, each of them `scale`
units. Just above a power of two the gap below is half as wide as the gap above. -/
def around (m : Nat) (e : Int) (scale : Nat) : Neighbourhood where
  low := (4 * m - if m = Nat.pow 2 52 ∧ e > -1074 then 1 else 2) * scale
  mid := 4 * m * scale
  high := (4 * m + 2) * scale
  closed := m % 2 = 0

/-! ## The multiple that is found -/

theorem contains_mono {n : Neighbourhood} {x y z : Nat} (hx : n.contains x = true)
    (hz : n.contains z = true) (hxy : x ≤ y) (hyz : y ≤ z) : n.contains y = true := by
  unfold contains at *
  split at hx <;> simp_all <;> omega

theorem contains_nearestMultiple {n : Neighbourhood} {step d : Nat}
    (h : n.nearestMultiple? step = some d) : n.contains (d * step) = true := by
  simp only [nearestMultiple?] at h
  split at h
  · split at h <;> simp_all
  · simp_all
  · simp_all
  · simp at h

theorem nearestMultiple_isSome {n : Neighbourhood} {step c : Nat} (hs : 0 < step)
    (hm : n.contains n.mid = true) (hc : n.contains (c * step) = true) :
    (n.nearestMultiple? step).isSome = true := by
  have hdiv := Nat.div_add_mod n.mid step
  have hmod := Nat.mod_lt n.mid hs
  rw [Nat.mul_comm] at hdiv
  have hnear : n.contains (n.mid / step * step) = true ∨
      n.contains ((n.mid / step + 1) * step) = true := by
    rcases Nat.lt_or_ge (n.mid / step) c with h | h
    · right
      have hle := Nat.mul_le_mul_right step (show n.mid / step + 1 ≤ c from h)
      refine contains_mono hm hc ?_ hle
      rw [Nat.add_mul]
      omega
    · left
      exact contains_mono hc hm (Nat.mul_le_mul_right step h) (by omega)
  simp only [nearestMultiple?]
  split
  · split <;> rfl
  · rfl
  · rfl
  · simp_all

theorem contains_coarsest {n : Neighbourhood} (hm : n.contains n.mid = true) (bound : Nat) :
    n.contains ((n.coarsest bound).1 * Nat.pow 10 (n.coarsest bound).2) = true := by
  induction bound with
  | zero => simpa [coarsest] using hm
  | succ k ih =>
    rw [coarsest]
    split
    · exact contains_nearestMultiple ‹_›
    · exact ih

theorem not_contains_of_coarser {n : Neighbourhood} (hm : n.contains n.mid = true)
    {bound k : Nat} (hk : (n.coarsest bound).2 < k) (hb : k ≤ bound) (c : Nat) :
    n.contains (c * Nat.pow 10 k) = false := by
  induction bound with
  | zero => omega
  | succ b ih =>
    rw [coarsest] at hk
    split at hk
    · omega
    · rename_i hnone
      rcases Nat.lt_or_eq_of_le hb with hlt | rfl
      · exact ih hk (by omega)
      · cases hc : n.contains (c * Nat.pow 10 (b + 1)) with
        | false => rfl
        | true =>
          have hsome : (n.nearestMultiple? (Nat.pow 10 (b + 1))).isSome = true :=
            nearestMultiple_isSome (Nat.pow_pos (by decide)) hm hc
          rw [hnone] at hsome
          cases hsome

theorem contains_mid_around {m : Nat} (hm : 0 < m) (e : Int) {scale : Nat} (hs : 0 < scale) :
    (around m e scale).contains (around m e scale).mid = true := by
  have hlow : (4 * m - if m = Nat.pow 2 52 ∧ e > -1074 then 1 else 2) < 4 * m := by
    split <;> omega
  have h₁ := Nat.mul_lt_mul_of_pos_right hlow hs
  have h₂ := Nat.mul_lt_mul_of_pos_right (show 4 * m < 4 * m + 2 by omega) hs
  unfold contains
  split <;> rw [Bool.and_eq_true, decide_eq_true_eq, decide_eq_true_eq]
  · exact ⟨Nat.le_of_lt h₁, Nat.le_of_lt h₂⟩
  · exact ⟨h₁, h₂⟩

end Neighbourhood

namespace Decimal

/-- The fewest digits that read back as the binary64 number `m * 2 ^ e`, where `m` has at most 53
bits, and the nearest such decimal. A quarter of the last place is `2 ^ (e - 2)`; where that
exponent is negative it is a power of five times a power of ten. -/
def shortest (m : Nat) (e : Int) : Decimal :=
  let unit := if e < 2 then e - 2 else 0
  let scale := if e < 2 then Nat.pow 5 (2 - e).toNat else Nat.pow 2 (e - 2).toNat
  let n := Neighbourhood.around m e scale
  let (digits, k) := n.coarsest (Nat.toDigits 10 n.high).length
  ⟨digits, k + unit⟩

end Decimal

end DisciplinedConvex
