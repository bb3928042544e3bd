import Mathlib.Algebra.BigOperators.Group.List.Basic
import DisciplinedConvex.Proofs.Built

/-! # Shapes of accepted applications

What a check that passes says of the shapes of the arguments and of the result.

* `Word.sum_eq_ok_iff` and `Word.sum_eq_error_iff` compare a sum of words with the true one.
* `Shape.broadcast?_eq_some_iff` and `Shape.matmul?_eq_some_iff` put the scalar operands first, in
  the same order.
* `Unary.of_reshape`, `Unary.of_index`, … are the cases of one argument, and `Binary.shape?_matmul`,
  `Binary.shape?_quadForm`, … those of two.
* Many arguments are taken two at a time (`Variadic.shape?_cons`, `Variadic.shape?_pair`). What a
  stack adds up fits in a word, so that it is the true sum (`Variadic.shape?_vstack_iff`).
-/

namespace DisciplinedConvex
set_option autoImplicit false

/-! ## Sums of words -/

namespace Word

variable {fault : Overflow} {w : UInt64} {ws : List UInt64}

/-- A sum that no word can hold is found out on the way, since the parts of it only grow. -/
theorem foldlM_add (ws : List UInt64) (a : UInt64) :
    ws.foldlM add a = fit .add (a.toNat + (ws.map UInt64.toNat).sum) := by
  induction ws generalizing a with
  | nil => exact (fit_eq_ok_iff.2 rfl).symm
  | cons b ws ih =>
    rw [List.foldlM_cons, List.map_cons, List.sum_cons, ← Nat.add_assoc]
    cases h : add a b with
    | ok w =>
      rw [fit_eq_ok_iff.1 h]
      exact ih w
    | error fault =>
      obtain ⟨hsize, rfl⟩ := fit_eq_error_iff.1 h
      exact (fit_eq_error_iff.2 ⟨Nat.le_add_right_of_le hsize, rfl⟩).symm

theorem sum_eq (ws : List UInt64) : sum ws = fit .add (ws.map UInt64.toNat).sum := by
  rw [sum, foldlM_add, UInt64.toNat_zero, Nat.zero_add]

theorem sum_eq_ok_iff : sum ws = .ok w ↔ (ws.map UInt64.toNat).sum = w.toNat := by
  rw [sum_eq, fit_eq_ok_iff]

theorem sum_eq_error_iff :
    sum ws = .error fault ↔ UInt64.size ≤ (ws.map UInt64.toNat).sum ∧ fault = .add := by
  rw [sum_eq, fit_eq_error_iff]

end Word

/-! ## Two shapes -/

namespace Shape

theorem isScalar_iff_toNat {s : Shape} :
    s.isScalar = true ↔ s.rows.toNat = 1 ∧ s.cols.toNat = 1 := by
  rw [isScalar_iff]
  cases s
  simp [scalar, ← UInt64.toNat_inj]

theorem isColumn_iff_toNat {s : Shape} : s.isColumn = true ↔ s.cols.toNat = 1 := by
  rw [isColumn, beq_iff_eq, ← UInt64.toNat_inj]
  rfl

variable {a b r : Shape}

theorem broadcast?_scalar (s : Shape) : s.broadcast? scalar = some s := by
  simp [broadcast?, isScalar, scalar]

theorem broadcast?_self (s : Shape) : s.broadcast? s = some s := by
  simp [broadcast?]

theorem broadcast?_eq_some_iff : a.broadcast? b = some r ↔
    if a.isScalar then b = r else if b.isScalar then a = r else a = b ∧ b = r := by
  unfold broadcast?
  by_cases ha : a.isScalar = true
  · rw [if_pos ha]
    by_cases hb : a = b ∨ b.isScalar = true
    · -- Both are scalars, so that it does not matter whose shape is taken.
      have hab : a = b := by
        rcases hb with hb | hb
        · exact hb
        · rw [isScalar_iff.1 ha, isScalar_iff.1 hb]
      simp [hab]
    · rw [not_or, Bool.not_eq_true] at hb
      simp [hb.1, hb.2, ha]
  · rw [if_neg ha]
    by_cases hb : b.isScalar = true
    · simp [ha, hb]
    · by_cases hab : a = b
      · simp [hab, hb]
      · simp [hab, ha, hb]

theorem matmul?_eq_some_iff : a.matmul? b = some r ↔
    if a.isScalar then b = r else if b.isScalar then a = r
      else a.cols = b.rows ∧ ⟨a.rows, b.cols⟩ = r := by
  unfold matmul?
  split
  · exact Option.some_inj
  · split
    · exact Option.some_inj
    · rw [Option.ite_none_right_eq_some, Option.some_inj]

end Shape

theorem Atom.broadcast_eq_ok {atom : Atom} {a b r : Shape} :
    atom.broadcast a b = .ok r ↔ a.broadcast? b = some r := by
  unfold broadcast
  split
  case h_1 s hs => rw [hs, Except.ok.injEq, Option.some_inj]
  case h_2 hs =>
    rw [hs]
    exact iff_of_false (nomatch ·) (nomatch ·)

theorem Atom.foldlM_broadcast_single (atom : Atom) (s t : Shape) :
    [t].foldlM atom.broadcast s = atom.broadcast s t := by
  rw [List.foldlM_cons]
  exact bind_pure _

/-! ## One argument -/

namespace Unary

variable {s t : Shape}

theorem toNat_length {r : Span} (h : r.start < r.stop) :
    r.length.toNat = r.stop.toNat - r.start.toNat := by
  rw [Span.length, if_pos h]
  exact UInt64.toNat_sub_of_le _ _ (UInt64.le_of_lt h)

theorem of_fits {r : Selection} (h : r.fits s = true) :
    (r.rows.start < r.rows.stop ∧ r.rows.stop.toNat ≤ s.rows.toNat) ∧
      (r.cols.start < r.cols.stop ∧ r.cols.stop.toNat ≤ s.cols.toNat) := by
  simp only [Selection.fits, Span.isEmpty, Bool.and_eq_true, Bool.not_eq_true',
    Bool.not_eq_false', decide_eq_true_eq, UInt64.le_iff_toNat_le] at h
  obtain ⟨⟨⟨hr, hc⟩, hrows⟩, hcols⟩ := h
  exact ⟨⟨hr, hrows⟩, hc, hcols⟩

theorem of_reshape {target : Shape} (h : (reshape target).shape? s = .ok t) :
    t = target ∧ s.count = target.count := by
  simp only [shape?] at h
  split at h
  case h_1 m n hm hn =>
    split at h
    case isTrue heq =>
      cases h
      simp only [Shape.checkedSize?, Option.ite_none_right_eq_some, Option.some.injEq] at hm hn
      obtain ⟨hm, rfl⟩ := hm
      obtain ⟨hn, rfl⟩ := hn
      have hnat := UInt64.toNat_inj.2 heq
      rw [UInt64.toNat_ofNat', UInt64.toNat_ofNat', Nat.mod_eq_of_lt hm,
        Nat.mod_eq_of_lt hn] at hnat
      exact ⟨rfl, hnat.symm⟩
    case isFalse => cases h
  case h_2 => cases h

theorem of_index {r : Selection} (h : (index r).shape? s = .ok t) :
    (t.rows.toNat = r.rows.stop.toNat - r.rows.start.toNat ∧
      r.rows.stop.toNat ≤ s.rows.toNat) ∧
    (t.cols.toNat = r.cols.stop.toNat - r.cols.start.toNat ∧
      r.cols.stop.toNat ≤ s.cols.toNat) := by
  simp only [shape?] at h
  split at h
  case isTrue hfits =>
    cases h
    obtain ⟨⟨hr, hrows⟩, hc, hcols⟩ := of_fits hfits
    exact ⟨⟨toNat_length hr, hrows⟩, toNat_length hc, hcols⟩
  case isFalse => cases h

theorem of_trace (h : trace.shape? s = .ok t) : t = .scalar ∧ s.rows = s.cols := by
  simp only [shape?] at h
  split at h
  case isTrue hs =>
    cases h
    exact ⟨rfl, beq_iff_eq.1 hs⟩
  case isFalse => cases h

/-- A column makes a matrix and a square matrix a column. -/
theorem of_diag (h : diag.shape? s = .ok t) :
    (s.isColumn = true ∧ t = ⟨s.rows, s.rows⟩) ∨
      (¬ s.isColumn = true ∧ s.rows = s.cols ∧ t = .vector s.rows) := by
  simp only [shape?] at h
  split at h
  case isTrue hs =>
    cases h
    exact .inl ⟨hs, rfl⟩
  case isFalse hs =>
    split at h
    case isTrue hsquare =>
      cases h
      exact .inr ⟨hs, beq_iff_eq.1 hsquare, rfl⟩
    case isFalse => cases h

end Unary

/-! ## Two arguments -/

namespace Binary

variable {op : Binary} {s t r : Shape}

theorem shape?_entrywise_iff (hop : op = add ∨ op = mul) :
    op.shape? s t = .ok r ↔ s.broadcast? t = some r := by
  rcases hop with rfl | rfl <;> exact Atom.broadcast_eq_ok

theorem shape?_entrywise (hop : op = add ∨ op = mul) (h : op.shape? s t = .ok r) :
    s.broadcast? t = some r :=
  (shape?_entrywise_iff hop).1 h

theorem shape?_matmul_iff : matmul.shape? s t = .ok r ↔ s.matmul? t = some r := by
  simp only [shape?]
  cases s.matmul? t <;> simp

theorem shape?_matmul (h : matmul.shape? s t = .ok r) : s.matmul? t = some r :=
  shape?_matmul_iff.1 h

theorem shape?_quadOverLin (h : quadOverLin.shape? s t = .ok r) :
    t.isScalar = true ∧ r = .scalar := by
  simp only [shape?] at h
  split at h
  case isTrue ht =>
    cases h
    exact ⟨ht, rfl⟩
  case isFalse => cases h

/-- The point is a column of as many rows as the matrix has rows and columns. -/
theorem shape?_quadForm (h : quadForm.shape? s t = .ok r) :
    s.isColumn = true ∧ t = ⟨s.rows, s.rows⟩ ∧ r = .scalar := by
  simp only [shape?] at h
  split at h
  case isTrue hs =>
    cases h
    simp only [Bool.and_eq_true, Shape.isSquare, beq_iff_eq] at hs
    obtain ⟨⟨hc, hsquare⟩, hrows⟩ := hs
    obtain ⟨rows, cols⟩ := t
    dsimp only at hsquare hrows
    exact ⟨hc, by rw [← hsquare, hrows], rfl⟩
  case isFalse => cases h

end Binary

/-! ## Many arguments -/

namespace Variadic

variable {op : Variadic} {s t r : Shape} {ts : List Shape}

theorem ite_any_eq_iff {p : Shape → Bool} {error : Error} {x y : Except Error Shape}
    (hy : .error error ≠ y) :
    (if ts.any p then .error error else x) = y ↔ (∀ t ∈ ts, p t = false) ∧ x = y := by
  have hnone : ts.any p = false ↔ ∀ t ∈ ts, p t = false := by simp
  rw [← hnone]
  cases ts.any p <;> simp [hy]

/-- A stacked dimension is the true sum of the parts. -/
theorem stacked_eq_ok_iff {dims : List UInt64} {f : UInt64 → Shape} :
    ((Word.sum dims).map f).mapError Error.overflow = .ok r ↔
      ∃ n, (dims.map UInt64.toNat).sum = n.toNat ∧ f n = r := by
  simp only [← Word.sum_eq_ok_iff]
  cases Word.sum dims with
  | ok n =>
    constructor
    · rintro ⟨⟩
      exact ⟨n, rfl, rfl⟩
    · rintro ⟨_, ⟨⟩, rfl⟩
      rfl
  | error fault =>
    constructor
    · rintro ⟨⟩
    · rintro ⟨_, ⟨⟩, -⟩

/-- A stacked dimension overflows if no word can hold the sum. -/
theorem stacked_eq_error_iff {dims : List UInt64} {f : UInt64 → Shape} {error : Error} :
    ((Word.sum dims).map f).mapError Error.overflow = .error error ↔
      UInt64.size ≤ (dims.map UInt64.toNat).sum ∧ error = .overflow .add := by
  have hmap : ∀ fault, (Word.sum dims).map f = .error fault ↔ Word.sum dims = .error fault := by
    intro fault
    cases Word.sum dims <;> simp [Except.map]
  simp only [Expr.mapError_eq_error, hmap, Word.sum_eq_error_iff]
  constructor
  · rintro ⟨_, ⟨hsize, rfl⟩, rfl⟩
    exact ⟨hsize, rfl⟩
  · rintro ⟨hsize, rfl⟩
    exact ⟨.add, ⟨hsize, rfl⟩, rfl⟩

theorem shape?_vstack_iff : vstack.shape? s ts = .ok r ↔ (∀ t ∈ ts, t.cols = s.cols) ∧
    s.rows.toNat + (ts.map (·.rows.toNat)).sum = r.rows.toNat ∧ s.cols = r.cols := by
  obtain ⟨rows, cols⟩ := r
  simp (disch := simp) only [shape?, ite_any_eq_iff, stacked_eq_ok_iff, List.map_cons,
    List.map_map, List.sum_cons, bne_eq_false_iff_eq, Shape.mk.injEq]
  refine and_congr_right fun _ => ⟨?_, fun ⟨hrows, hcols⟩ => ⟨rows, hrows, rfl, hcols⟩⟩
  rintro ⟨n, hrows, rfl, hcols⟩
  exact ⟨hrows, hcols⟩

theorem shape?_hstack_iff : hstack.shape? s ts = .ok r ↔ (∀ t ∈ ts, t.rows = s.rows) ∧
    s.cols.toNat + (ts.map (·.cols.toNat)).sum = r.cols.toNat ∧ s.rows = r.rows := by
  obtain ⟨rows, cols⟩ := r
  simp (disch := simp) only [shape?, ite_any_eq_iff, stacked_eq_ok_iff, List.map_cons,
    List.map_map, List.sum_cons, bne_eq_false_iff_eq, Shape.mk.injEq]
  refine and_congr_right fun _ => ⟨?_, fun ⟨hcols, hrows⟩ => ⟨cols, hcols, hrows, rfl⟩⟩
  rintro ⟨n, hcols, hrows, rfl⟩
  exact ⟨hcols, hrows⟩

theorem toNat_ofNat_of_add_le {m n : ℕ} {w : UInt64} (h : m + n = w.toNat) :
    (UInt64.ofNat m).toNat = m :=
  UInt64.toNat_ofNat_of_lt' (Nat.lt_of_le_of_lt (h ▸ Nat.le_add_right m n) w.toNat_lt_size)

/-- The shape of many arguments is found two at a time. -/
theorem shape?_cons (h : op.shape? s (t :: ts) = .ok r) :
    ∃ u, op.shape? s [t] = .ok u ∧ op.shape? u ts = .ok r := by
  have hbroadcast : ∀ atom : Atom,
      ((t :: ts).foldlM atom.broadcast s).mapError Error.shape = .ok r →
      ∃ u, ([t].foldlM atom.broadcast s).mapError Error.shape = .ok u ∧
        (ts.foldlM atom.broadcast u).mapError Error.shape = .ok r := by
    intro atom h
    rw [Expr.mapError_eq_ok, List.foldlM_cons] at h
    simp only [Expr.mapError_eq_ok]
    cases hu : atom.broadcast s t with
    | error e =>
      rw [hu] at h
      cases h
    | ok u =>
      rw [hu] at h
      exact ⟨u, (atom.foldlM_broadcast_single s t).trans hu, h⟩
  cases op with
  | maximum => exact hbroadcast _ h
  | minimum => exact hbroadcast _ h
  | vstack =>
    obtain ⟨hcols, hrows, hr⟩ := shape?_vstack_iff.1 h
    rw [List.map_cons, List.sum_cons, ← Nat.add_assoc] at hrows
    have hsum := toNat_ofNat_of_add_le hrows
    refine ⟨⟨.ofNat (s.rows.toNat + t.rows.toNat), s.cols⟩, ?_, ?_⟩
    · exact shape?_vstack_iff.2 ⟨by simpa using hcols t List.mem_cons_self, hsum.symm, rfl⟩
    · refine shape?_vstack_iff.2 ⟨fun u hu => hcols u (List.mem_cons_of_mem t hu), ?_, hr⟩
      rw [hsum, hrows]
  | hstack =>
    obtain ⟨hrows, hcols, hr⟩ := shape?_hstack_iff.1 h
    rw [List.map_cons, List.sum_cons, ← Nat.add_assoc] at hcols
    have hsum := toNat_ofNat_of_add_le hcols
    refine ⟨⟨s.rows, .ofNat (s.cols.toNat + t.cols.toNat)⟩, ?_, ?_⟩
    · exact shape?_hstack_iff.2 ⟨by simpa using hrows t List.mem_cons_self, hsum.symm, rfl⟩
    · refine shape?_hstack_iff.2 ⟨fun u hu => hrows u (List.mem_cons_of_mem t hu), ?_, hr⟩
      rw [hsum, hcols]

theorem shape?_nil (h : op.shape? s [] = .ok r) : s = r := by
  cases op with
  | maximum => cases h; rfl
  | minimum => cases h; rfl
  | vstack =>
    obtain ⟨-, hrows, hcols⟩ := shape?_vstack_iff.1 h
    exact congrArg₂ Shape.mk (UInt64.toNat_inj.1 hrows) hcols
  | hstack =>
    obtain ⟨-, hcols, hrows⟩ := shape?_hstack_iff.1 h
    exact congrArg₂ Shape.mk hrows (UInt64.toNat_inj.1 hcols)

/-- Stacked dimensions add up as numbers. -/
theorem shape?_pair (h : op.shape? s [t] = .ok r) :
    match op with
    | vstack => s.cols = t.cols ∧ s.rows.toNat + t.rows.toNat = r.rows.toNat ∧ s.cols = r.cols
    | hstack => s.rows = t.rows ∧ s.cols.toNat + t.cols.toNat = r.cols.toNat ∧ s.rows = r.rows
    | maximum | minimum => s.broadcast? t = some r := by
  have hbroadcast : ∀ atom : Atom, ([t].foldlM atom.broadcast s).mapError Error.shape = .ok r →
      s.broadcast? t = some r := by
    intro atom h
    rwa [Expr.mapError_eq_ok, atom.foldlM_broadcast_single, Atom.broadcast_eq_ok] at h
  cases op with
  | maximum => exact hbroadcast _ h
  | minimum => exact hbroadcast _ h
  | vstack =>
    obtain ⟨hcols, hdims⟩ := shape?_vstack_iff.1 h
    exact ⟨(hcols t List.mem_cons_self).symm, hdims⟩
  | hstack =>
    obtain ⟨hrows, hdims⟩ := shape?_hstack_iff.1 h
    exact ⟨(hrows t List.mem_cons_self).symm, hdims⟩

end Variadic

end DisciplinedConvex
