import DisciplinedConvex.Proofs.Arguments.Outcome
import DisciplinedConvex.Proofs.Meaning.Expr

/-! # Indices and slices

What is selected at coordinates that are words, the largest one included.

* `Span.toNat_stop_single` and `Span.toNat_length` say that no word runs over while a selection is
  made and measured, whatever its coordinates.
* `Span.Inside` is what the check asks of a span. A position passes it exactly when it is below the
  dimension (`Span.single_inside_iff`).
* `Span.within` counts an inner span from where an outer one starts. If the inner span has passed
  its check, the sums fit in a word (`Span.Inside.toNat_within`).
* `Expr.selects_exactly`: when an index or a slice succeeds and what it selects, and that a slice of
  a slice is one slice of the whole.
-/

namespace DisciplinedConvex
set_option autoImplicit false

/-! ## Spans -/

namespace Span

/-- The position after the last word is held at the last word. -/
theorem toNat_stop_single (i : UInt64) :
    (single i).stop.toNat = min (i.toNat + 1) (UInt64.size - 1) := by
  have hi : i.toNat < UInt64.size := i.toNat_lt_size
  unfold single
  dsimp only
  split
  case isTrue h =>
    rw [UInt64.toNat_add, UInt64.toNat_one, Nat.mod_eq_of_lt h]
    omega
  case isFalse => omega

/-- A span that starts at its stop or later has no positions. -/
theorem toNat_length (s : Span) : s.length.toNat = s.stop.toNat - s.start.toNat := by
  by_cases h : s.start < s.stop
  · exact Unary.toNat_length h
  · rw [length, if_neg h, UInt64.toNat_zero]
    rw [UInt64.lt_iff_toNat_lt] at h
    omega

/-- There are positions, and all of them are below `n`. -/
structure Inside (s : Span) (n : UInt64) : Prop where
  start_lt : s.start < s.stop
  stop_le : s.stop ≤ n

theorem inside_iff {s : Span} {n : UInt64} : s.Inside n ↔ s.start < s.stop ∧ s.stop ≤ n :=
  ⟨fun h => ⟨h.start_lt, h.stop_le⟩, fun h => ⟨h.1, h.2⟩⟩

theorem single_inside_iff {i n : UInt64} : (single i).Inside n ↔ i < n := by
  constructor
  · intro h
    exact UInt64.lt_of_lt_of_le h.start_lt h.stop_le
  · intro h
    obtain ⟨hempty, hle⟩ := Expr.single_fits h
    exact ⟨by simpa [isEmpty] using hempty, hle⟩

theorem Inside.length_eq {s : Span} {n : UInt64} (h : s.Inside n) : s.length = s.stop - s.start :=
  if_pos h.start_lt

/-- The inner span, counted from where the outer one starts. -/
def within (outer inner : Span) : Span := ⟨outer.start + inner.start, outer.start + inner.stop⟩

section Within

variable {outer inner : Span} {n : UInt64}

/-- The inner span ends where the outer one does, or before. -/
theorem Inside.add_stop_le (h : outer.Inside n) (k : inner.Inside outer.length) :
    outer.start.toNat + inner.stop.toNat ≤ outer.stop.toNat := by
  have hstart := UInt64.lt_iff_toNat_lt.1 h.start_lt
  have hstop := UInt64.le_iff_toNat_le.1 k.stop_le
  rw [toNat_length] at hstop
  omega

theorem Inside.add_lt_size (h : outer.Inside n) (k : inner.Inside outer.length) :
    outer.start.toNat + inner.start.toNat < UInt64.size ∧
    outer.start.toNat + inner.stop.toNat < UInt64.size := by
  have hsum := h.add_stop_le k
  have hlt := UInt64.lt_iff_toNat_lt.1 k.start_lt
  have hword := outer.stop.toNat_lt_size
  constructor <;> omega

/-- The sums do not wrap. -/
theorem Inside.toNat_within (h : outer.Inside n) (k : inner.Inside outer.length) :
    (outer.within inner).start.toNat = outer.start.toNat + inner.start.toNat ∧
    (outer.within inner).stop.toNat = outer.start.toNat + inner.stop.toNat := by
  obtain ⟨hstart, hstop⟩ := h.add_lt_size k
  constructor
  · rw [within, UInt64.toNat_add, Nat.mod_eq_of_lt hstart]
  · rw [within, UInt64.toNat_add, Nat.mod_eq_of_lt hstop]

theorem Inside.within (h : outer.Inside n) (k : inner.Inside outer.length) :
    (outer.within inner).Inside n := by
  obtain ⟨hstart, hstop⟩ := h.toNat_within k
  have hsum := h.add_stop_le k
  have hlt := UInt64.lt_iff_toNat_lt.1 k.start_lt
  have hle := UInt64.le_iff_toNat_le.1 h.stop_le
  refine ⟨UInt64.lt_iff_toNat_lt.2 ?_, UInt64.le_iff_toNat_le.2 ?_⟩
  · omega
  · omega

theorem Inside.length_within (h : outer.Inside n) (k : inner.Inside outer.length) :
    (outer.within inner).length = inner.length := by
  obtain ⟨hstart, hstop⟩ := h.toNat_within k
  rw [← UInt64.toNat_inj, toNat_length, toNat_length, hstart, hstop]
  omega

end Within

end Span

/-! ## Selections -/

namespace Selection

theorem fits_iff {s : Selection} {shape : Shape} :
    s.fits shape = true ↔ s.rows.Inside shape.rows ∧ s.cols.Inside shape.cols := by
  simp only [fits, Span.isEmpty, Bool.not_not, Bool.and_eq_true, decide_eq_true_eq]
  constructor
  · rintro ⟨⟨⟨hr, hc⟩, hrows⟩, hcols⟩
    exact ⟨⟨hr, hrows⟩, hc, hcols⟩
  · rintro ⟨⟨hr, hrows⟩, hc, hcols⟩
    exact ⟨⟨⟨hr, hc⟩, hrows⟩, hcols⟩

theorem fits_element_iff {i j : UInt64} {shape : Shape} :
    (element i j).fits shape = true ↔ i < shape.rows ∧ j < shape.cols := by
  rw [fits_iff, element, Span.single_inside_iff, Span.single_inside_iff]

theorem shape_element {i j : UInt64} {shape : Shape} (h : (element i j).fits shape = true) :
    (element i j).shape = .scalar := by
  obtain ⟨hi, hj⟩ := fits_element_iff.1 h
  rw [Selection.shape, element, Expr.length_single hi, Expr.length_single hj]
  rfl

/-- The inner selection, counted from the corner of the outer one. -/
def within (outer inner : Selection) : Selection :=
  ⟨outer.rows.within inner.rows, outer.cols.within inner.cols⟩

variable {outer inner : Selection} {shape : Shape}

theorem fits_within (h : outer.fits shape = true) (k : inner.fits outer.shape = true) :
    (outer.within inner).fits shape = true ∧ (outer.within inner).shape = inner.shape := by
  obtain ⟨hrows, hcols⟩ := fits_iff.1 h
  obtain ⟨krows, kcols⟩ := fits_iff.1 k
  refine ⟨fits_iff.2 ⟨hrows.within krows, hcols.within kcols⟩, ?_⟩
  rw [Selection.shape, within, hrows.length_within krows, hcols.length_within kcols]
  rfl

/-- One step instead of two reads the same entries. -/
theorem table_within {K : Type*} [Field K] [LinearOrder K] (S : Textbook K)
    (h : outer.fits shape = true) (k : inner.fits outer.shape = true) (x : Table K) :
    (Unary.index (outer.within inner)).table S x =
      (Unary.index inner).table S ((Unary.index outer).table S x) := by
  obtain ⟨hrows, hcols⟩ := fits_iff.1 h
  obtain ⟨krows, kcols⟩ := fits_iff.1 k
  obtain ⟨htop, hbottom⟩ := hrows.toNat_within krows
  obtain ⟨hleft, hright⟩ := hcols.toNat_within kcols
  simp only [Unary.table, within, htop, hbottom, hleft, hright, Nat.add_sub_add_left,
    Nat.add_assoc]

end Selection

/-! ## Expressions -/

namespace Expr

theorem apply_index_eq (x : Expr) (s : Selection) : apply (.unary (.index s)) [x] =
    if s.fits x.shape then .ok (unary none (.index s) x)
    else .error (.shape (.outOfBounds s x.shape)) := by
  change (((Unary.index s).shape? x.shape).mapError Error.shape).map (fun _ => unary none _ x) = _
  rw [Unary.shape?]
  split <;> rfl

theorem apply_index_eq_ok_iff {x e : Expr} {s : Selection} :
    apply (.unary (.index s)) [x] = .ok e ↔
      s.fits x.shape = true ∧ e = unary none (.index s) x := by
  rw [apply_index_eq]
  by_cases h : s.fits x.shape = true
  · simp [h, eq_comm]
  · simp [h]

theorem apply_index_eq_error_iff {x : Expr} {s : Selection} {error : Error} :
    apply (.unary (.index s)) [x] = .error error ↔
      ¬ s.fits x.shape = true ∧ error = .shape (.outOfBounds s x.shape) := by
  rw [apply_index_eq]
  by_cases h : s.fits x.shape = true
  · simp [h]
  · simp [h, eq_comm]

theorem shape_index {label : Option Nat} {x : Expr} {s : Selection} (h : s.fits x.shape = true) :
    (unary label (.index s) x).shape = s.shape :=
  Unary.shape_eq (if_pos h)

theorem attributes_index (label : Option Nat) (s : Selection) (x : Expr) :
    (unary label (.index s) x).attributes = x.attributes :=
  Unary.attributes_of_keeps (fun _ => rfl) rfl rfl x.attributes

/-- How a checked selection may end: it is made exactly under the condition, with the shape, and
refused with a complaint about its coordinates otherwise. -/
structure Selects (x : Expr) (s : Selection) (accepted : Prop) (shape : Shape)
    (outcome : Except Error Expr) : Prop where
  succeeds_iff : (∃ e, outcome = .ok e) ↔ accepted
  shape_eq : ∀ e, outcome = .ok e → e.shape = shape
  error_eq : ∀ error, outcome = .error error → error = .shape (.outOfBounds s x.shape)

theorem selects {x : Expr} {s : Selection} {accepted : Prop} {shape : Shape}
    (h : s.fits x.shape = true ↔ accepted) (hs : accepted → s.shape = shape) :
    x.Selects s accepted shape (apply (.unary (.index s)) [x]) where
  succeeds_iff := by simp only [apply_index_eq_ok_iff, exists_and_left, exists_eq, and_true, h]
  shape_eq e he := by
    obtain ⟨hfits, rfl⟩ := apply_index_eq_ok_iff.1 he
    rw [shape_index hfits, hs (h.1 hfits)]
  error_eq error he := (apply_index_eq_error_iff.1 he).2

theorem selects_index (x : Expr) (i j : UInt64) :
    x.Selects (.element i j) (i < x.shape.rows ∧ j < x.shape.cols) .scalar (x.index i j) :=
  selects Selection.fits_element_iff fun h =>
    Selection.shape_element (Selection.fits_element_iff.2 h)

theorem selects_slice (x : Expr) (rows cols : Span) :
    x.Selects ⟨rows, cols⟩ (rows.Inside x.shape.rows ∧ cols.Inside x.shape.cols)
      ⟨rows.stop - rows.start, cols.stop - cols.start⟩ (x.slice rows cols) :=
  selects Selection.fits_iff fun ⟨hrows, hcols⟩ => by
    rw [Selection.shape, hrows.length_eq, hcols.length_eq]

/-- A slice of a slice is the slice of the whole at the sums. -/
theorem slice_slice {x y z : Expr} {rows cols rows' cols' : Span}
    (hy : x.slice rows cols = .ok y) (hz : y.slice rows' cols' = .ok z) :
    ∃ w, x.slice (rows.within rows') (cols.within cols') = .ok w ∧ w.Agrees z ∧
      ∀ {K : Type*} [Field K] [LinearOrder K] (S : Textbook K) (ρ : Point K),
        w.value S ρ = z.value S ρ := by
  obtain ⟨hfits, rfl⟩ := apply_index_eq_ok_iff.1 hy
  obtain ⟨hfits', rfl⟩ := apply_index_eq_ok_iff.1 hz
  have hinner := hfits'
  rw [shape_index hfits] at hinner
  obtain ⟨hwithin, hshape⟩ := Selection.fits_within hfits hinner
  refine ⟨_, apply_index_eq_ok_iff.2 ⟨hwithin, rfl⟩, .of_attributes ?_ ?_, fun S ρ => ?_⟩
  · exact (shape_index hwithin).trans (hshape.trans (shape_index hfits').symm)
  · rw [attributes_index, attributes_index, attributes_index]
  · exact Selection.table_within S hfits hinner (x.value S ρ)

/-- An index succeeds exactly below both dimensions, in a scalar. A slice succeeds exactly if both
spans are inside of the dimensions, in the shape of the differences. All else is an error in the
coordinates, and no word runs over on the way. A slice of a slice is the slice of the whole at the
sums, which fit in a word: it succeeds with the same shape, sign and curvature, and it selects the
same entries. -/
theorem selects_exactly (x : Expr) :
    (∀ i j : UInt64,
      x.Selects (.element i j) (i < x.shape.rows ∧ j < x.shape.cols) .scalar (x.index i j)) ∧
    (∀ rows cols : Span,
      x.Selects ⟨rows, cols⟩ ((rows.start < rows.stop ∧ rows.stop ≤ x.shape.rows) ∧
        cols.start < cols.stop ∧ cols.stop ≤ x.shape.cols)
        ⟨rows.stop - rows.start, cols.stop - cols.start⟩ (x.slice rows cols)) ∧
    ((∀ i, (Span.single i).stop.toNat = min (i.toNat + 1) (UInt64.size - 1)) ∧
      ∀ s : Span, s.length.toNat = s.stop.toNat - s.start.toNat) ∧
    ∀ (rows cols rows' cols' : Span) (y z : Expr),
      x.slice rows cols = .ok y → y.slice rows' cols' = .ok z →
      ((rows.start.toNat + rows'.start.toNat < UInt64.size ∧
          rows.start.toNat + rows'.stop.toNat < UInt64.size) ∧
        cols.start.toNat + cols'.start.toNat < UInt64.size ∧
        cols.start.toNat + cols'.stop.toNat < UInt64.size) ∧
      ∃ w, x.slice ⟨rows.start + rows'.start, rows.start + rows'.stop⟩
          ⟨cols.start + cols'.start, cols.start + cols'.stop⟩ = .ok w ∧
        w.Agrees z ∧
        ∀ {K : Type*} [Field K] [LinearOrder K] (S : Textbook K) (ρ : Point K),
          w.value S ρ = z.value S ρ ∧ ∀ i j, (z.value S ρ).entry (i, j) =
            (x.value S ρ).entry (rows.start.toNat + (rows'.start.toNat + i),
              cols.start.toNat + (cols'.start.toNat + j)) := by
  refine ⟨x.selects_index, ?_, ⟨Span.toNat_stop_single, Span.toNat_length⟩, ?_⟩
  · simpa only [Span.inside_iff] using x.selects_slice
  · intro rows cols rows' cols' y z hy hz
    obtain ⟨w, hw, hagrees, hvalue⟩ := slice_slice hy hz
    obtain ⟨hfits, rfl⟩ := apply_index_eq_ok_iff.1 hy
    obtain ⟨hfits', rfl⟩ := apply_index_eq_ok_iff.1 hz
    rw [shape_index hfits] at hfits'
    obtain ⟨hrows, hcols⟩ := Selection.fits_iff.1 hfits
    obtain ⟨hrows', hcols'⟩ := Selection.fits_iff.1 hfits'
    exact ⟨⟨hrows.add_lt_size hrows', hcols.add_lt_size hcols'⟩, w, hw, hagrees,
      fun S ρ => ⟨hvalue S ρ, fun _ _ => rfl⟩⟩

/-! ### Coordinates at the end of the words -/

def tall : Expr := var ⟨0, { shape := ⟨0xFFFFFFFFFFFFFFFF, 2⟩ }⟩

def lastRows : Expr := unary none (.index ⟨⟨0xFFFFFFFFFFFFFFFB, 0xFFFFFFFFFFFFFFFF⟩, ⟨0, 2⟩⟩) tall

/-- Of the last four rows the last three, in one step. No row has the largest word for its index. -/
theorem selects_last_rows :
    tall.slice ⟨0xFFFFFFFFFFFFFFFB, 0xFFFFFFFFFFFFFFFF⟩ ⟨0, 2⟩ = .ok lastRows ∧
    (∃ z w, lastRows.slice ⟨1, 4⟩ ⟨1, 2⟩ = .ok z ∧
      tall.slice ⟨0xFFFFFFFFFFFFFFFC, 0xFFFFFFFFFFFFFFFF⟩ ⟨1, 2⟩ = .ok w ∧ w.Agrees z ∧
      w.shape = .vector 3 ∧
      ∀ {K : Type*} [Field K] [LinearOrder K] (S : Textbook K) (ρ : Point K),
        w.value S ρ = z.value S ρ) ∧
    (∃ e, tall.index 0xFFFFFFFFFFFFFFFE 1 = .ok e) ∧
    ¬ ∃ e, tall.index 0xFFFFFFFFFFFFFFFF 0 = .ok e := by
  obtain ⟨hindex, -, -, hslice⟩ := selects_exactly tall
  have hy : tall.slice ⟨0xFFFFFFFFFFFFFFFB, 0xFFFFFFFFFFFFFFFF⟩ ⟨0, 2⟩ = .ok lastRows :=
    apply_index_eq_ok_iff.2 ⟨by decide, rfl⟩
  have hz : lastRows.slice ⟨1, 4⟩ ⟨1, 2⟩ = .ok (unary none (.index ⟨⟨1, 4⟩, ⟨1, 2⟩⟩) lastRows) :=
    apply_index_eq_ok_iff.2 ⟨by decide, rfl⟩
  obtain ⟨-, w, hw, hagrees, hvalue⟩ := hslice _ _ _ _ _ _ hy hz
  refine ⟨hy, ⟨_, w, hz, hw, hagrees, ?_, fun S ρ => (hvalue S ρ).1⟩, ?_, ?_⟩
  · rw [hagrees.shape]
    decide
  · exact (hindex _ _).succeeds_iff.2 (by decide)
  · exact mt (hindex _ _).succeeds_iff.1 (by decide)

end Expr

end DisciplinedConvex
