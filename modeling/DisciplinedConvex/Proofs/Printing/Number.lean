import DisciplinedConvex.Decimal.Text
import DisciplinedConvex.Proofs.Storage.Negation

/-! # Printed numbers

* `Decimal.read_text` reads the value of a decimal off its text, which is all digits but for a point
  (`Decimal.mem_text`).
* The shortest decimal of a stored number is among the numbers that round to it
  (`Decimal.roundsTo_shortest`), and of two stored numbers the larger has all of these above those
  of the smaller (`Decimal.RoundsTo.lt`).
* Hence no two finite numbers but the zeros print the same (`Number.text_inj`).
-/

namespace DisciplinedConvex
set_option autoImplicit false

open Float.Model (Format UnpackedFloat)
open Number (IsCanonical)

/-! ## Reading a decimal -/

namespace Decimal

def value (d : Decimal) : ℚ := d.digits * 10 ^ d.exponent

/-- The digits without the point, over the power of ten for the places after it. -/
def read (s : List Char) : ℚ :=
  Nat.ofDigitChars 10 (s.filter (· ≠ '.')) 0 / 10 ^ ((s.dropWhile (· ≠ '.')).length - 1)

theorem ne_point_of_mem_toDigits {n : ℕ} {c : Char} (h : c ∈ Nat.toDigits 10 n) : c ≠ '.' := by
  rintro rfl
  exact absurd (Nat.isDigit_of_mem_toDigits (by decide) (by decide) h) (by decide)

theorem read_whole {s : List Char} (h : ∀ c ∈ s, c ≠ '.') : read s = Nat.ofDigitChars 10 s 0 := by
  have hfilter : s.filter (· ≠ '.') = s := List.filter_eq_self.2 (by simpa using h)
  have hdrop : s.dropWhile (· ≠ '.') = [] := List.dropWhile_eq_nil_iff.2 (by simpa using h)
  rw [read, hfilter, hdrop]
  simp

theorem read_point {s t : List Char} (hs : ∀ c ∈ s, c ≠ '.') (ht : ∀ c ∈ t, c ≠ '.') :
    read (s ++ '.' :: t) = Nat.ofDigitChars 10 (s ++ t) 0 / 10 ^ t.length := by
  have hfilter : (s ++ '.' :: t).filter (· ≠ '.') = s ++ t := by
    rw [List.filter_append, List.filter_cons_of_neg (by decide),
      List.filter_eq_self.2 (by simpa using hs), List.filter_eq_self.2 (by simpa using ht)]
  have hdrop : (s ++ '.' :: t).dropWhile (· ≠ '.') = '.' :: t := by
    rw [List.dropWhile_append_of_pos (by simpa using hs), List.dropWhile_cons_of_neg (by decide)]
  rw [read, hfilter, hdrop, List.length_cons, Nat.add_sub_cancel]

theorem read_text (d : Decimal) : read d.text.toList = d.value := by
  obtain ⟨n, x⟩ := d
  have hzeros : ∀ k, ∀ c ∈ List.replicate k '0', c ≠ '.' := fun k c hc => by
    rw [List.eq_of_mem_replicate hc]
    decide
  cases x with
  | ofNat k =>
    have hne : ∀ c ∈ Nat.toDigits 10 n ++ List.replicate k '0', c ≠ '.' := fun c hc =>
      (List.mem_append.1 hc).elim ne_point_of_mem_toDigits (hzeros k c)
    rw [text, String.toList_ofList, read_whole hne, Nat.ofDigitChars_append,
      Nat.ofDigitChars_toDigits (by decide) (by decide), Nat.ofDigitChars_replicate_zero, value]
    simp [mul_comm]
  | negSucc k =>
    let padded := List.replicate (k + 1 + 1 - (Nat.toDigits 10 n).length) '0' ++ Nat.toDigits 10 n
    have hne : ∀ c ∈ padded, c ≠ '.' := fun c hc =>
      (List.mem_append.1 hc).elim (hzeros _ c) ne_point_of_mem_toDigits
    have hlength : k + 1 ≤ padded.length := by
      rw [List.length_append, List.length_replicate]
      omega
    rw [text, String.toList_ofList, read_point (fun c hc => hne c (List.mem_of_mem_take hc))
      (fun c hc => hne c (List.mem_of_mem_drop hc)), List.take_append_drop, List.length_drop,
      Nat.sub_sub_self hlength, Nat.ofDigitChars_append, Nat.ofDigitChars_replicate_zero,
      Nat.mul_zero, Nat.ofDigitChars_toDigits (by decide) (by decide), value, zpow_negSucc,
      div_eq_mul_inv]

theorem mem_text {d : Decimal} {c : Char} (h : c ∈ d.text.toList) : c.isDigit = true ∨ c = '.' := by
  have hdigit : ∀ {n : ℕ}, c ∈ Nat.toDigits 10 n → c.isDigit = true :=
    Nat.isDigit_of_mem_toDigits (by decide) (by decide)
  have hzero : ∀ {k : ℕ}, c ∈ List.replicate k '0' → c.isDigit = true := fun hc => by
    rw [List.eq_of_mem_replicate hc]
    decide
  obtain ⟨n, x⟩ := d
  cases x with
  | ofNat k =>
    rw [text, String.toList_ofList] at h
    exact .inl ((List.mem_append.1 h).elim hdigit hzero)
  | negSucc k =>
    rw [text, String.toList_ofList, List.mem_append, List.mem_cons] at h
    have hpadded : c ∈ List.replicate (k + 1 + 1 - (Nat.toDigits 10 n).length) '0' ++
        Nat.toDigits 10 n → c.isDigit = true := fun hc =>
      (List.mem_append.1 hc).elim hzero hdigit
    rcases h with h | h | h
    · exact .inl (hpadded (List.mem_of_mem_take h))
    · exact .inr h
    · exact .inl (hpadded (List.mem_of_mem_drop h))

/-! ## Rounding -/

/-- How far the numbers that are rounded to `m * 2 ^ e` reach below it, in quarters of the last
place. Just above a power of two the gap below is half as wide as the gap above. -/
def reach (m : ℕ) (e : ℤ) : ℕ := if m = 2 ^ 52 ∧ e > -1074 then 1 else 2

theorem reach_le_two (m : ℕ) (e : ℤ) : reach m e ≤ 2 := by
  unfold reach
  split <;> decide

/-- The numbers that are rounded to `m * 2 ^ e`. The two ends of the interval are when the
significand is even. -/
structure RoundsTo (v : ℚ) (m : ℕ) (e : ℤ) : Prop where
  low : (4 * m - reach m e : ℚ) * 2 ^ (e - 2) ≤ v
  high : v ≤ (4 * m + 2) * 2 ^ (e - 2)
  strict : m % 2 = 1 → (4 * m - reach m e : ℚ) * 2 ^ (e - 2) < v ∧ v < (4 * m + 2) * 2 ^ (e - 2)

theorem roundsTo_of_contains {m x scale : ℕ} {e : ℤ} {unit : ℚ} (hunit : 0 < unit)
    (hscale : scale * unit = 2 ^ (e - 2)) (hm : 0 < m)
    (h : (Neighbourhood.around m e scale).contains x = true) : RoundsTo (x * unit) m e := by
  have hreach := reach_le_two m e
  have hlow : ((4 * m - reach m e) * scale : ℕ) * unit = (4 * m - reach m e : ℚ) * 2 ^ (e - 2) := by
    rw [Nat.cast_mul, Nat.cast_sub (by omega), mul_assoc, hscale]
    push_cast
    rfl
  have hhigh : ((4 * m + 2) * scale : ℕ) * unit = (4 * m + 2 : ℚ) * 2 ^ (e - 2) := by
    rw [Nat.cast_mul, mul_assoc, hscale]
    push_cast
    rfl
  have hle : ∀ {a b : ℕ}, a ≤ b → (a * unit : ℚ) ≤ b * unit := fun hab =>
    mul_le_mul_of_nonneg_right (by exact_mod_cast hab) hunit.le
  have hlt : ∀ {a b : ℕ}, a < b → (a * unit : ℚ) < b * unit := fun hab =>
    mul_lt_mul_of_pos_right (by exact_mod_cast hab) hunit
  have haround : Neighbourhood.around m e scale =
      ⟨(4 * m - reach m e) * scale, 4 * m * scale, (4 * m + 2) * scale, m % 2 = 0⟩ := rfl
  rw [haround, Neighbourhood.contains] at h
  by_cases heven : m % 2 = 0
  · simp only [heven, decide_true, if_true, Bool.and_eq_true, decide_eq_true_eq] at h
    refine ⟨hlow ▸ hle h.1, hhigh ▸ hle h.2, fun hodd => ?_⟩
    omega
  · simp only [heven, decide_false, Bool.false_eq_true, if_false, Bool.and_eq_true,
      decide_eq_true_eq] at h
    have hstrict := And.intro (hlow ▸ hlt h.1) (hhigh ▸ hlt h.2)
    exact ⟨hstrict.1.le, hstrict.2.le, fun _ => hstrict⟩

theorem roundsTo_shortest {m : ℕ} (hm : 0 < m) (e : ℤ) : RoundsTo (shortest m e).value m e := by
  have hround : ∀ (scale : ℕ) (unit : ℤ) (bound : ℕ), 0 < scale →
      (scale * 10 ^ unit : ℚ) = 2 ^ (e - 2) →
      RoundsTo (value ⟨((Neighbourhood.around m e scale).coarsest bound).1,
        ((Neighbourhood.around m e scale).coarsest bound).2 + unit⟩) m e := by
    intro scale unit bound hpos hscale
    have hcontains := Neighbourhood.contains_coarsest
      (Neighbourhood.contains_mid_around hm e hpos) bound
    have h := roundsTo_of_contains (by positivity) hscale hm hcontains
    rw [value, zpow_add₀ (by norm_num), ← mul_assoc, zpow_natCast]
    simpa using h
  unfold shortest
  by_cases he : e < 2
  · simp only [if_pos he]
    refine hround _ _ _ (Nat.pow_pos (by decide)) ?_
    obtain ⟨k, hk⟩ : ∃ k : ℕ, e - 2 = -k := ⟨(2 - e).toNat, by omega⟩
    have htoNat : (2 - e).toNat = k := by omega
    rw [hk, htoNat, zpow_neg, zpow_neg, zpow_natCast, zpow_natCast, Nat.pow_eq]
    push_cast
    rw [show (10 : ℚ) = 5 * 2 by norm_num, mul_pow, mul_inv, mul_inv_cancel_left₀ (by positivity)]
  · simp only [if_neg he]
    refine hround _ _ _ (Nat.pow_pos (by decide)) ?_
    obtain ⟨k, hk⟩ : ∃ k : ℕ, e - 2 = k := ⟨(e - 2).toNat, by omega⟩
    rw [hk, Int.toNat_natCast, zpow_zero, mul_one, zpow_natCast, Nat.pow_eq]
    push_cast
    rfl

section Apart

variable {m n : ℕ} {e f : ℤ} {v w : ℚ}

/-- The larger exponent leaves room for the largest significand of the smaller one. -/
theorem RoundsTo.lt_of_exponent_lt (hv : RoundsTo v m e) (hw : RoundsTo w n f)
    (hm : IsCanonical m e) (hn : IsCanonical n f) (h : e < f) : v < w := by
  have hq : (0 : ℚ) < 2 ^ (e - 2) := by positivity
  have hle := hm.le
  have hfull : 2 ^ 52 ≤ n := by
    by_contra hnot
    have hleast := hn.eq_of_lt (by omega)
    omega
  have hreach : (2 ^ 54 - 1 : ℚ) ≤ 4 * n - reach n f := by
    have hnat : 2 ^ 54 ≤ 4 * n - reach n f + 1 ∧ reach n f ≤ 4 * n := by
      unfold reach
      split <;> omega
    have hcast : (2 ^ 54 : ℚ) ≤ (4 * n - reach n f : ℕ) + 1 := by exact_mod_cast hnat.1
    rw [Nat.cast_sub hnat.2] at hcast
    push_cast at hcast
    linarith
  have hpow : 2 * (2 : ℚ) ^ (e - 2) ≤ 2 ^ (f - 2) := by
    rw [← zpow_one_add₀ (by norm_num)]
    exact zpow_le_zpow_right₀ (by norm_num) (by omega)
  have hlow : (2 ^ 55 - 2 : ℚ) * 2 ^ (e - 2) ≤ w := calc
    (2 ^ 55 - 2 : ℚ) * 2 ^ (e - 2) = (2 ^ 54 - 1) * (2 * 2 ^ (e - 2)) := by ring
    _ ≤ (4 * n - reach n f) * 2 ^ (f - 2) :=
      mul_le_mul hreach hpow (by positivity) (by linarith)
    _ ≤ w := hw.low
  -- the interval of the largest significand ends where that of the next power of two can begin
  by_cases hlast : m = 2 ^ 53 - 1
  · have hend : (4 * m + 2 : ℚ) = 2 ^ 55 - 2 := by
      rw [hlast]
      norm_num
    have hstrict := (hv.strict (by omega)).2
    rw [hend] at hstrict
    exact hstrict.trans_le hlow
  · have hsmall : (4 * m + 2 : ℚ) < 2 ^ 55 - 2 := by
      have hlt := hm.lt
      have hcast : (4 * m + 4 : ℚ) < 2 ^ 55 := by exact_mod_cast (by omega : 4 * m + 4 < 2 ^ 55)
      linarith
    exact (hv.high.trans_lt (mul_lt_mul_of_pos_right hsmall hq)).trans_le hlow

theorem RoundsTo.lt_of_significand_lt (hv : RoundsTo v m e) (hw : RoundsTo w n e) (h : m < n) :
    v < w := by
  have hq : (0 : ℚ) < 2 ^ (e - 2) := by positivity
  have hreach := reach_le_two n e
  have hends : (4 * m + 2 : ℚ) * 2 ^ (e - 2) ≤ (4 * n - reach n e) * 2 ^ (e - 2) := by
    have hcast : (4 * m + 2 + reach n e : ℚ) ≤ 4 * n := by
      exact_mod_cast (by omega : 4 * m + 2 + reach n e ≤ 4 * n)
    exact mul_le_mul_of_nonneg_right (by linarith) hq.le
  -- the two intervals meet in an end at most, which does not belong to an odd significand
  by_cases hmodd : m % 2 = 1
  · exact ((hv.strict hmodd).2.trans_le hends).trans_le hw.low
  by_cases hnodd : n % 2 = 1
  · exact (hv.high.trans hends).trans_lt (hw.strict hnodd).1
  · have hapart : (4 * m + 2 : ℚ) < 4 * n - reach n e := by
      have hcast : (4 * m + 3 + reach n e : ℚ) ≤ 4 * n := by
        exact_mod_cast (by omega : 4 * m + 3 + reach n e ≤ 4 * n)
      linarith
    exact (hv.high.trans_lt (mul_lt_mul_of_pos_right hapart hq)).trans_le hw.low

theorem RoundsTo.lt (hv : RoundsTo v m e) (hw : RoundsTo w n f) (hm : IsCanonical m e)
    (hn : IsCanonical n f) (h : (m * 2 ^ e : ℚ) < n * 2 ^ f) : v < w := by
  have hef : e ≤ f := not_lt.1 fun hlt => (hn.lt_of_exponent_lt hm hlt).asymm h
  rcases hef.lt_or_eq with hlt | rfl
  · exact hv.lt_of_exponent_lt hw hm hn hlt
  · refine hv.lt_of_significand_lt hw ?_
    rw [mul_lt_mul_iff_left₀ (by positivity)] at h
    exact_mod_cast h

end Apart

/-- Canonical numbers whose shortest decimals have one text are the same. -/
theorem shortest_inj {m n : ℕ} {e f : ℤ} (hm0 : 0 < m) (hn0 : 0 < n) (hm : IsCanonical m e)
    (hn : IsCanonical n f) (h : (shortest m e).text = (shortest n f).text) : m = n ∧ e = f := by
  have hvalue : (shortest m e).value = (shortest n f).value := by
    rw [← read_text, ← read_text, h]
  have hv := roundsTo_shortest hm0 e
  have hw := roundsTo_shortest hn0 f
  have hexact : (m * 2 ^ e : ℚ) = n * 2 ^ f := by
    rcases lt_trichotomy (m * 2 ^ e : ℚ) (n * 2 ^ f) with hlt | heq | hgt
    · exact absurd hvalue (hv.lt hw hm hn hlt).ne
    · exact heq
    · exact absurd hvalue (hw.lt hv hn hm hgt).ne'
  have hcompare := hm.compare_eq hn
  rw [hexact, compare_eq_iff_eq.2 rfl, Ordering.then_eq_eq] at hcompare
  exact ⟨compare_eq_iff_eq.1 hcompare.2, compare_eq_iff_eq.1 hcompare.1⟩

end Decimal

/-! ## Printed numbers -/

namespace Number

theorem exists_unpack {v : Float} (hv : v.isFinite = true) (h0 : (v == 0) = false) :
    ∃ s m e hm, v.toModel.unpack = .finite s m e hm := by
  change v.toModel.unpack.isFinite = true at hv
  change v.toModel.unpack.beq (0 : Float).toModel.unpack = false at h0
  cases hv' : v.toModel.unpack with
  | infinity s =>
    rw [hv'] at hv
    cases hv
  | notANumber =>
    rw [hv'] at hv
    cases hv
  | zero s =>
    rw [hv'] at h0
    cases h0
  | finite s m e hm => exact ⟨s, m, e, hm, rfl⟩

theorem text_of_unpack {v : Float} {s : UnpackedFloat.Sign} {m : ℕ} {e : ℤ} {hm : 0 < m}
    (hv : v.toModel.unpack = .finite s m e hm) :
    text v = text.mark s ++ (Decimal.shortest m e).text := by
  rw [text, hv]

theorem mem_text {v : Float} (hv : v.isFinite = true) (h0 : (v == 0) = false) {c : Char}
    (hc : c ∈ (text v).toList) : c.isDigit = true ∨ c = '.' ∨ c = '-' := by
  obtain ⟨s, m, e, hm, hv⟩ := exists_unpack hv h0
  rw [text_of_unpack hv, String.toList_append, List.mem_append] at hc
  rcases hc with hc | hc
  · cases s with
    | positive => cases hc
    | negative => exact .inr (.inr (List.mem_singleton.1 hc))
  · exact (Decimal.mem_text hc).imp_right .inl

/-- A finite number is stored in one form only. -/
theorem eq_of_unpack {v w : Float} {s : UnpackedFloat.Sign} {m : ℕ} {e : ℤ} {hm : 0 < m}
    (hv : v.toModel.unpack = .finite s m e hm) (hw : w.toModel.unpack = .finite s m e hm) :
    v = w := by
  have hpack : ∀ {u : Float}, u.toModel.unpack = .finite s m e hm →
      u.toModel.toBits.toBitVec = UnpackedFloat.pack .binary64 (.finite s m e hm) := by
    intro u hu
    have hbits := @UnpackedFloat.pack_unpack .binary64 u.toModel.toBits.toBitVec (by decide)
    rw [Float.Model.unpack] at hu
    rw [hu] at hbits
    split at hbits
    case isTrue hnan =>
      rw [UnpackedFloat.isNaNBits, decide_eq_true_eq] at hnan
      rw [unpack_eq_ofParts, ofParts, if_pos hnan.1, if_neg hnan.2] at hu
      cases hu
    case isFalse => exact hbits.symm
  have hbits := UInt64.toBitVec_inj.1 ((hpack hv).trans (hpack hw).symm)
  obtain ⟨⟨b, hb⟩⟩ := v
  obtain ⟨⟨c, hc⟩⟩ := w
  cases hbits
  rfl

/-- No two numbers that can be exponents print the same. -/
theorem text_inj {v w : Float} (hv : v.isFinite = true) (hv0 : (v == 0) = false)
    (hw : w.isFinite = true) (hw0 : (w == 0) = false) (h : text v = text w) : v = w := by
  obtain ⟨s, m, e, hm, hv⟩ := exists_unpack hv hv0
  obtain ⟨t, n, f, hn, hw⟩ := exists_unpack hw hw0
  rw [text_of_unpack hv, text_of_unpack hw] at h
  have hminus : ∀ d d' : Decimal, "-" ++ d.text ≠ "" ++ d'.text := fun d d' hd => by
    have hmem : '-' ∈ d'.text.toList := by
      rw [← String.empty_append (s := d'.text), ← hd]
      simp
    rcases Decimal.mem_text hmem with hdigit | hpoint
    · exact absurd hdigit (by decide)
    · exact absurd hpoint (by decide)
  have hsign : s = t := by
    cases s <;> cases t
    · rfl
    · exact absurd h (hminus _ _)
    · exact absurd h.symm (hminus _ _)
    · rfl
  subst hsign
  obtain ⟨rfl, rfl⟩ := Decimal.shortest_inj hm hn (isCanonical_of_unpack hv)
    (isCanonical_of_unpack hw) (String.append_right_inj _ |>.1 h)
  exact eq_of_unpack hv hw

end Number

end DisciplinedConvex
