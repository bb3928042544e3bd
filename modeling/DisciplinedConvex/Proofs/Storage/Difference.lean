import DisciplinedConvex.Proofs.Storage.Negation

/-! # Differences of numbers

How far two numbers can be apart if their difference is not found to be larger than the tolerance of
a symmetric matrix.

* `Number.Covers` says that a result is zero only for zero and otherwise falls short of the exact
  one by less than a unit in the last place.
* `Number.round_covers` is the statement for one rounding, `Number.normalize_covers` for an integer
  with an exponent and `Number.sub_covers` for a difference.
* `Number.close_of_not_far` says what follows for two numbers, one of which is known to be finite.
-/

namespace DisciplinedConvex
set_option autoImplicit false

open Float.Model (Format UnpackedFloat totalExponent)
open Float.Model.UnpackedFloat (ExtendedMantissa shiftToTargetExponent decreaseExponent)

namespace Number

/-! ## Shifting a significand -/

theorem mantissa_shiftRight (em : ExtendedMantissa) (k : ℕ) :
    (em >>> k).mantissa = em.mantissa / 2 ^ k := by
  induction k generalizing em with
  | zero => exact (Nat.div_one _).symm
  | succ k ih =>
    change (em >>> k).mantissa / 2 = _
    rw [ih, Nat.div_div_eq_div_mul, pow_succ]

theorem roundedMantissa_bounds (em : ExtendedMantissa) :
    em.mantissa ≤ em.roundedMantissa ∧ em.roundedMantissa ≤ em.mantissa + 1 := by
  obtain ⟨m, r, s⟩ := em
  cases r <;> cases s <;>
    simp only [ExtendedMantissa.roundedMantissa, ExtendedMantissa.accuracy,
      UnpackedFloat.Accuracy.roundToNearestEven] <;> omega

theorem targetExponent_eq (m : ℕ) (e : ℤ) :
    Format.binary64.targetExponent (totalExponent m e) = max ((m.log2 : ℤ) + e - 52) (-1074) := by
  change max ((m.log2 : ℤ) + 1 + e - 53) (-1074) = _
  congr 1
  omega

theorem shiftToTargetExponent_snd {m : ℕ} {e t : ℤ}
    (ht : t = max ((m.log2 : ℤ) + e - 52) (-1074)) (he : e ≤ t) :
    (shiftToTargetExponent .binary64 m e .exact).2 = t ∧
      (shiftToTargetExponent .binary64 m e .exact).1.mantissa = m / 2 ^ (t - e).toNat := by
  unfold shiftToTargetExponent UnpackedFloat.shiftToExponent
  rw [targetExponent_eq, ← ht]
  refine ⟨?_, mantissa_shiftRight _ _⟩
  change e + ((t - e).toNat : ℤ) = t
  omega

/-- A significand that fits stays as it is. -/
theorem shift_of_lt {m : ℕ} {e : ℤ} (hm : m < 2 ^ 53) (he : -1074 ≤ e) :
    (shiftToTargetExponent .binary64 m e .exact).2 = e ∧
      (shiftToTargetExponent .binary64 m e .exact).1.mantissa = m := by
  have hlog : m.log2 ≤ 52 := by
    by_cases h : m = 0
    · rw [h]
      decide
    · exact Nat.le_of_lt_succ ((Nat.log2_lt h).2 hm)
  have hzero : (Format.binary64.targetExponent (totalExponent m e) - e).toNat = 0 := by
    rw [targetExponent_eq]
    omega
  unfold shiftToTargetExponent UnpackedFloat.shiftToExponent
  dsimp only
  rw [hzero]
  exact ⟨Int.add_zero e, rfl⟩

/-- Rounding up to one bit more is made good by one more shift, which loses nothing. -/
theorem shift_carry {e : ℤ} (he : -1074 ≤ e) :
    (shiftToTargetExponent .binary64 (2 ^ 53) e .exact).2 = e + 1 ∧
      (shiftToTargetExponent .binary64 (2 ^ 53) e .exact).1.mantissa = 2 ^ 52 := by
  have ht : e + 1 = max (((2 ^ 53 : ℕ).log2 : ℤ) + e - 52) (-1074) := by
    rw [Nat.log2_two_pow]
    omega
  obtain ⟨hsnd, hfst⟩ := shiftToTargetExponent_snd ht (by omega)
  have hone : (e + 1 - e).toNat = 1 := by omega
  rw [hone] at hfst
  exact ⟨hsnd, hfst⟩

/-- A rounded significand in its stored form. -/
theorem isCanonical_shift {r : ℕ} {t : ℤ} (hr : r ≤ 2 ^ 53) (ht : -1074 ≤ t)
    (hfull : r < 2 ^ 52 → t = -1074) :
    IsCanonical (shiftToTargetExponent .binary64 r t .exact).1.mantissa
        (shiftToTargetExponent .binary64 r t .exact).2 ∧
      (shiftToTargetExponent .binary64 r t .exact).1.mantissa *
        2 ^ (shiftToTargetExponent .binary64 r t .exact).2 = (r * 2 ^ t : ℚ) := by
  rcases hr.lt_or_eq with hr | rfl
  · obtain ⟨hexponent, hmantissa⟩ := shift_of_lt hr ht
    rw [hexponent, hmantissa]
    exact ⟨⟨hr, ht, hfull⟩, rfl⟩
  · obtain ⟨hexponent, hmantissa⟩ := shift_carry ht
    rw [hexponent, hmantissa]
    refine ⟨⟨by decide, by omega, fun h => absurd h (lt_irrefl _)⟩, ?_⟩
    rw [zpow_add_one₀ (by norm_num)]
    push_cast
    ring

/-! ## Rounding -/

/-- A result in stored form for the exact value `q`. -/
def Covers (u : UnpackedFloat) (q : ℚ) : Prop :=
  match u with
  | .zero _ => q = 0
  | .finite _ n f _ => IsCanonical n f ∧ |q| ≤ n * 2 ^ f * (1 + 1 / 2 ^ 52)
  | _ => False

theorem Covers.neg {u : UnpackedFloat} {q : ℚ} (h : Covers u q) : Covers u (-q) := by
  cases u with
  | infinity s => exact h
  | notANumber => exact h
  | zero s => exact neg_eq_zero.2 h
  | finite s n f hn => exact ⟨h.1, by rw [abs_neg]; exact h.2⟩

/-- Cutting bits off a full significand loses less than a unit in the last place. -/
theorem le_of_shift {m k r : ℕ} (hr : m / 2 ^ k ≤ r) (hfull : 0 < k → 2 ^ 52 ≤ m / 2 ^ k) :
    (m : ℚ) ≤ r * 2 ^ k * (1 + 1 / 2 ^ 52) := by
  rcases k.eq_zero_or_pos with rfl | hk
  · rw [pow_zero, Nat.div_one] at hr
    have hle : (m : ℚ) ≤ r := by exact_mod_cast hr
    have hpos : (0 : ℚ) ≤ r := Nat.cast_nonneg r
    rw [pow_zero]
    linarith
  · have hlt : m < (m / 2 ^ k + 1) * 2 ^ k :=
      (Nat.div_lt_iff_lt_mul (by positivity)).1 (Nat.lt_succ_self _)
    have hle : (m : ℚ) ≤ (r + 1) * 2 ^ k := by
      exact_mod_cast hlt.le.trans (Nat.mul_le_mul_right _ (Nat.succ_le_succ hr))
    have hone : (1 : ℚ) ≤ r * (1 / 2 ^ 52) := by
      rw [mul_one_div, le_div_iff₀ (by positivity), one_mul]
      exact_mod_cast (hfull hk).trans hr
    have hpow : (0 : ℚ) ≤ 2 ^ k := by positivity
    calc (m : ℚ) ≤ (r + 1) * 2 ^ k := hle
      _ ≤ (r + r * (1 / 2 ^ 52)) * 2 ^ k := by gcongr
      _ = r * 2 ^ k * (1 + 1 / 2 ^ 52) := by ring

/-- Bits are cut off only above the least exponent, and then 53 of them are kept. -/
theorem kept_bounds {m k : ℕ} {e t : ℤ} (hm : 0 < m)
    (ht : t = max ((m.log2 : ℤ) + e - 52) (-1074)) (hk : t = e + k) :
    m / 2 ^ k < 2 ^ 53 ∧ (t ≠ -1074 → 2 ^ 52 ≤ m / 2 ^ k) := by
  constructor
  · rw [Nat.div_lt_iff_lt_mul (by positivity), ← pow_add]
    exact Nat.lt_log2_self.trans_le (Nat.pow_le_pow_right (by decide) (by omega))
  · intro hne
    rw [Nat.le_div_iff_mul_le (by positivity), ← pow_add]
    exact (Nat.pow_le_pow_right (by decide) (by omega)).trans (Nat.log2_self_le hm.ne')

theorem roundWithAccuracy_covers (s : UnpackedFloat.Sign) {m : ℕ} {e t : ℤ} (hm : 0 < m)
    (he : -1074 ≤ e) (ht : t = max ((m.log2 : ℤ) + e - 52) (-1074)) (het : e ≤ t) :
    Covers (UnpackedFloat.roundWithAccuracy .binary64 s m e .exact) (m * 2 ^ e) := by
  obtain ⟨hexponent, hmantissa⟩ := shiftToTargetExponent_snd ht het
  have hround := roundedMantissa_bounds (shiftToTargetExponent .binary64 m e .exact).1
  generalize hr : (shiftToTargetExponent .binary64 m e .exact).1.roundedMantissa = r at hround
  rw [hmantissa] at hround
  obtain ⟨hle, hge⟩ := hround
  obtain ⟨k, hk⟩ : ∃ k : ℕ, t = e + k := ⟨(t - e).toNat, by omega⟩
  have hshift : (t - e).toNat = k := by omega
  rw [hshift] at hle hge
  obtain ⟨hlt, hfull⟩ := kept_bounds hm ht hk
  have hcanonical := isCanonical_shift (r := r) (t := t) (by omega) (by omega) fun hlow =>
    not_not.1 fun hne => absurd (hfull hne) (by omega)
  have hbound : (m * 2 ^ e : ℚ) ≤ r * 2 ^ t * (1 + 1 / 2 ^ 52) := by
    have hcut := le_of_shift hle fun hpos => hfull (by omega)
    have hpow : (0 : ℚ) < 2 ^ e := by positivity
    calc (m * 2 ^ e : ℚ) ≤ r * 2 ^ k * (1 + 1 / 2 ^ 52) * 2 ^ e := by gcongr
      _ = r * 2 ^ t * (1 + 1 / 2 ^ 52) := by
        rw [hk, zpow_add₀ (by norm_num), zpow_natCast]
        ring
  have hpos : (0 : ℚ) < m * 2 ^ e := by positivity
  unfold UnpackedFloat.roundWithAccuracy
  dsimp only
  rw [hr, hexponent]
  split
  case isTrue hzero =>
    have hvalue := hcanonical.2
    rw [hzero, Nat.cast_zero, zero_mul] at hvalue
    rw [← hvalue, zero_mul] at hbound
    exact absurd hbound (not_le.2 hpos)
  case isFalse =>
    refine ⟨hcanonical.1, ?_⟩
    rw [abs_of_pos hpos, hcanonical.2]
    exact hbound

theorem value_decreaseExponent (m : ℕ) (e t : ℤ) :
    ((decreaseExponent m e t).1 * 2 ^ (decreaseExponent m e t).2 : ℚ) = m * 2 ^ e := by
  unfold decreaseExponent
  dsimp only
  rw [Nat.shiftLeft_eq, Nat.cast_mul, Nat.cast_pow, Nat.cast_ofNat, mul_assoc, ← zpow_natCast,
    ← zpow_add₀ (by norm_num)]
  congr 2
  omega

theorem log2_shiftLeft {m : ℕ} (hm : 0 < m) (k : ℕ) : (m <<< k).log2 = m.log2 + k := by
  have hpow : 0 < 2 ^ k := by positivity
  rw [Nat.shiftLeft_eq, Nat.log2_eq_iff (by positivity), pow_add, Nat.add_right_comm, pow_add]
  exact ⟨Nat.mul_le_mul_right _ (Nat.log2_self_le hm.ne'),
    Nat.mul_lt_mul_of_pos_right Nat.lt_log2_self hpow⟩

theorem round_covers (s : UnpackedFloat.Sign) {m : ℕ} {e : ℤ} (hm : 0 < m) (he : -1074 ≤ e) :
    Covers (UnpackedFloat.round .binary64 s m e) (m * 2 ^ e) := by
  unfold UnpackedFloat.round
  rw [targetExponent_eq, ← value_decreaseExponent m e (max ((m.log2 : ℤ) + e - 52) (-1074))]
  generalize ht : max ((m.log2 : ℤ) + e - 52) (-1074) = t
  have hlog := log2_shiftLeft hm (e - t).toNat
  have hpos : 0 < m <<< (e - t).toNat := by
    rw [Nat.shiftLeft_eq]
    positivity
  have hexponent : (decreaseExponent m e t).2 = e - (e - t).toNat := rfl
  refine roundWithAccuracy_covers s (t := t) hpos ?_ ?_ ?_ <;> omega

theorem normalize_covers {m e : ℤ} (he : -1074 ≤ e) :
    Covers (UnpackedFloat.normalize .binary64 m e .positive) (m * 2 ^ e) := by
  unfold UnpackedFloat.normalize
  rcases lt_trichotomy m 0 with hm | rfl | hm
  · obtain ⟨n, rfl⟩ : ∃ n : ℕ, m = -n := ⟨m.natAbs, by omega⟩
    rw [compare_lt_iff_lt.2 hm]
    have h := (round_covers .negative (m := n) (by omega) he).neg
    simpa using h
  · rw [compare_eq_iff_eq.2 rfl]
    exact zero_mul _
  · obtain ⟨n, rfl⟩ : ∃ n : ℕ, m = n := ⟨m.natAbs, by omega⟩
    rw [compare_gt_iff_gt.2 hm]
    exact_mod_cast round_covers .positive (m := n) (by omega) he

/-! ## Differences -/

theorem abs_apply (s : UnpackedFloat.Sign) (m : ℕ) (e : ℤ) :
    |((s.apply m : ℤ) * 2 ^ e : ℚ)| = m * 2 ^ e := by
  have hpos : (0 : ℚ) ≤ m * 2 ^ e := by positivity
  cases s with
  | positive => exact abs_of_nonneg hpos
  | negative =>
    rw [UnpackedFloat.Sign.apply, Int.cast_neg, neg_mul, abs_neg]
    exact abs_of_nonneg hpos

/-- A number with its significand moved to a smaller exponent. -/
theorem apply_decreaseExponent (s : UnpackedFloat.Sign) (m : ℕ) {e t : ℤ} (h : t ≤ e) :
    (s.apply (decreaseExponent m e t).1 : ℤ) * 2 ^ t = ((s.apply m : ℤ) * 2 ^ e : ℚ) := by
  have hvalue := value_decreaseExponent m e t
  have hexponent : (decreaseExponent m e t).2 = t := by
    change e - ((e - t).toNat : ℤ) = t
    omega
  rw [hexponent] at hvalue
  cases s with
  | positive => exact hvalue
  | negative =>
    rw [UnpackedFloat.Sign.apply, UnpackedFloat.Sign.apply, Int.cast_neg, Int.cast_neg, neg_mul,
      neg_mul]
    exact congrArg (- ·) hvalue

theorem exact_of_finite {v : Float} {s : UnpackedFloat.Sign} {m : ℕ} {e : ℤ} {h : 0 < m}
    (hv : v.toModel.unpack = .finite s m e h) : exact v = (s.apply m : ℤ) * 2 ^ e := by
  unfold exact
  rw [hv]
  cases s <;> simp [UnpackedFloat.Sign.apply]

/-- A stored number is a result for itself and, up to the sign, for its negation. -/
theorem covers_stored {v : Float} {s t : UnpackedFloat.Sign} {m : ℕ} {e : ℤ} {h : 0 < m}
    (hv : v.toModel.unpack = .finite s m e h) : Covers (.finite t m e h) (exact v) := by
  have hpos : (0 : ℚ) ≤ m * 2 ^ e := by positivity
  refine ⟨isCanonical_of_unpack hv, ?_⟩
  rw [exact_of_finite hv, abs_apply]
  exact le_mul_of_one_le_right hpos (by norm_num)

theorem sub_covers {a b : Float} (ha : a.isFinite = true) (hb : b.isFinite = true) :
    Covers (UnpackedFloat.sub .binary64 a.toModel.unpack b.toModel.unpack)
      (exact a - exact b) := by
  change a.toModel.unpack.isFinite = true at ha
  change b.toModel.unpack.isFinite = true at hb
  have hzero : ∀ {v : Float} {s}, v.toModel.unpack = .zero s → exact v = 0 := by
    intro v s hv
    unfold exact
    rw [hv]
  cases ha' : a.toModel.unpack with
  | infinity s => rw [ha'] at ha; cases ha
  | notANumber => rw [ha'] at ha; cases ha
  | zero s =>
    rw [hzero ha', zero_sub]
    cases hb' : b.toModel.unpack with
    | infinity t => rw [hb'] at hb; cases hb
    | notANumber => rw [hb'] at hb; cases hb
    | zero t =>
      rw [hzero hb', neg_zero]
      unfold UnpackedFloat.sub
      dsimp only
      split <;> rfl
    | finite t n f hn => exact (covers_stored hb').neg
  | finite s m e hm =>
    cases hb' : b.toModel.unpack with
    | infinity t => rw [hb'] at hb; cases hb
    | notANumber => rw [hb'] at hb; cases hb
    | zero t =>
      rw [hzero hb', sub_zero]
      exact covers_stored ha'
    | finite t n f hn =>
      have hmin : -1074 ≤ min e f :=
        le_min (isCanonical_of_unpack ha').le (isCanonical_of_unpack hb').le
      rw [exact_of_finite ha', exact_of_finite hb', ← apply_decreaseExponent s m (min_le_left e f),
        ← apply_decreaseExponent t n (min_le_right e f), ← sub_mul, ← Int.cast_sub]
      exact normalize_covers hmin

/-! ## Storing a result -/

theorem exists_parts (s : UnpackedFloat.Sign) {n : ℕ} {f : ℤ} (hn : 0 < n) (h : IsCanonical n f)
    (hf : f ≤ 971) : ∃ e m, ofParts s e m = .finite s n f hn := by
  have hlow := h.le
  rcases lt_or_ge n (2 ^ 52) with hlt | hge
  · have hm : (BitVec.ofNat 52 n).toNat = n := by
      rw [BitVec.toNat_ofNat, Nat.mod_eq_of_lt hlt]
    have hne : BitVec.ofNat 52 n ≠ 0#52 := by
      rw [ne_eq, ← BitVec.toNat_inj, hm]
      exact hn.ne'
    refine ⟨0#11, BitVec.ofNat 52 n, ?_⟩
    rw [ofParts, if_neg (by decide), if_pos rfl, dif_neg hne]
    simp only [hm, h.eq_of_lt hlt]
  · have hlt := h.lt
    have hm : (1#1 ++ BitVec.ofNat 52 n).toNat = n := by
      rw [toNat_one_append, BitVec.toNat_ofNat]
      omega
    have he : (BitVec.ofNat 11 (f + 1075).toNat).toNat = (f + 1075).toNat := by
      rw [BitVec.toNat_ofNat, Nat.mod_eq_of_lt (by omega)]
    have hlast : BitVec.ofNat 11 (f + 1075).toNat ≠ -1#11 := by
      rw [ne_eq, ← BitVec.toNat_inj, he]
      change ¬ (f + 1075).toNat = 2047
      omega
    have hfirst : BitVec.ofNat 11 (f + 1075).toNat ≠ 0#11 := by
      rw [ne_eq, ← BitVec.toNat_inj, he]
      change ¬ (f + 1075).toNat = 0
      omega
    have hexponent : (((f + 1075).toNat : ℕ) : ℤ) - 1075 = f := by omega
    refine ⟨BitVec.ofNat 11 (f + 1075).toNat, BitVec.ofNat 52 n, ?_⟩
    rw [ofParts, if_neg hlast, if_neg hfirst]
    simp only [hm, he, hexponent]

/-- A result is stored as it is, unless it is too large. -/
theorem Covers.unpack_pack {u : UnpackedFloat} {q : ℚ} (h : Covers u q) :
    UnpackedFloat.unpack .binary64 (UnpackedFloat.pack .binary64 u) = u ∨
      ∃ s, UnpackedFloat.unpack .binary64 (UnpackedFloat.pack .binary64 u) = .infinity s := by
  cases u with
  | infinity s => exact h.elim
  | notANumber => exact h.elim
  | zero s => exact .inl (unpack_pack_ofParts s 0#11 0#52)
  | finite s n f hn =>
    rcases le_or_gt f 971 with hf | hf
    · obtain ⟨e, m, hparts⟩ := exists_parts s hn h.1 hf
      rw [← hparts]
      exact .inl (unpack_pack_ofParts s e m)
    · have hbiased : 2 ^ 11 ≤ (f + (1023 : ℕ) + (52 : ℕ)).toNat + 1 := by omega
      have hpack : UnpackedFloat.pack .binary64 (.finite s n f hn) =
          UnpackedFloat.packComponents .binary64 s (-1#11) 0#52 := if_pos hbiased
      rw [hpack, unpack_parts]
      exact .inr ⟨s, rfl⟩

/-! ## Distances -/

/-- The tolerance of a symmetric matrix with what rounding can add to it. -/
def tolerance : ℚ := 1 / 10 ^ 10 + 1 / 10 ^ 25

theorem unpack_tolerance :
    (1e-10 : Float).toModel.unpack = .finite .positive 7737125245533627 (-86) (by decide) := by
  rfl

theorem far_of_infinity {v : Float} {s : UnpackedFloat.Sign}
    (h : v.toModel.unpack = .infinity s) : v.abs > 1e-10 := by
  change decide ((UnpackedFloat.compare (1e-10 : Float).toModel.unpack v.abs.toModel.unpack ==
    some .lt) = true) = true
  rw [unpack_abs, h, unpack_tolerance]
  rfl

theorem le_of_not_far {v : Float} {s : UnpackedFloat.Sign} {n : ℕ} {f : ℤ} {hn : 0 < n}
    (hv : v.toModel.unpack = .finite s n f hn) (h : ¬ v.abs > 1e-10) :
    (n * 2 ^ f : ℚ) ≤ 7737125245533627 * 2 ^ (-86 : ℤ) := by
  have habs : v.abs.toModel.unpack = .finite .positive n f hn := by
    rw [unpack_abs, hv]
    rfl
  have hfinite : v.abs.isFinite = true := by
    change v.abs.toModel.unpack.isFinite = true
    rw [habs]
    rfl
  rw [gt_iff_lt, lt_iff (by rfl) hfinite, exact_of_finite habs, exact_of_finite unpack_tolerance,
    not_lt] at h
  exact h

/-- A number that is not found to be further than the tolerance from a finite one. -/
theorem close_of_not_far {a b : Float} (ha : a.isNaN = false) (hb : b.isFinite = true)
    (h : ¬ (a - b).abs > 1e-10) :
    a.isFinite = true ∧ |exact a - exact b| ≤ tolerance := by
  have hsub : (a - b).toModel.unpack = UnpackedFloat.unpack .binary64
      (UnpackedFloat.pack .binary64
        (UnpackedFloat.sub .binary64 a.toModel.unpack b.toModel.unpack)) := rfl
  have hfinite : a.isFinite = true := by
    change a.toModel.unpack.isNaN = false at ha
    change b.toModel.unpack.isFinite = true at hb
    change a.toModel.unpack.isFinite = true
    cases ha' : a.toModel.unpack with
    | notANumber => rw [ha'] at ha; cases ha
    | zero s => rfl
    | finite s m e hm => rfl
    | infinity s =>
      refine absurd (far_of_infinity (s := s) ?_) h
      rw [hsub, ha']
      cases hb' : b.toModel.unpack with
      | infinity t => rw [hb'] at hb; cases hb
      | notANumber => rw [hb'] at hb; cases hb
      | zero t => exact unpack_pack_ofParts s (-1#11) 0#52
      | finite t n f hn => exact unpack_pack_ofParts s (-1#11) 0#52
  refine ⟨hfinite, ?_⟩
  have hcovers := sub_covers hfinite hb
  rcases hcovers.unpack_pack with hsame | ⟨s, hinfinity⟩
  · rw [hsame] at hsub
    generalize UnpackedFloat.sub .binary64 a.toModel.unpack b.toModel.unpack = u at hcovers hsub
    cases u with
    | infinity s => exact hcovers.elim
    | notANumber => exact hcovers.elim
    | zero s =>
      have hzero : exact a - exact b = 0 := hcovers
      rw [hzero, abs_zero]
      norm_num [tolerance]
    | finite s n f hn =>
      have hle := le_of_not_far hsub h
      calc |exact a - exact b| ≤ n * 2 ^ f * (1 + 1 / 2 ^ 52) := hcovers.2
        _ ≤ 7737125245533627 * 2 ^ (-86 : ℤ) * (1 + 1 / 2 ^ 52) := by gcongr
        _ ≤ tolerance := by norm_num [tolerance]
  · exact absurd (far_of_infinity (hsub.trans hinfinity)) h

end Number

end DisciplinedConvex
