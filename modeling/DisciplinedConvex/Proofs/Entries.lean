import DisciplinedConvex.Proofs.Selection
import DisciplinedConvex.Proofs.Arguments.Order
import DisciplinedConvex.Proofs.Flatten

/-! # All entries of an expression

`Expr.entries` makes its nodes in two nested loops and without a check.

* `flatMap_range_map_range` makes one loop of the two. `Shape.position` is the round of this loop in
  which an entry is made, and every round makes an entry (`Shape.exists_position`).
* `Expr.index_eq_ok_iff` says when the checked index makes the same node.
* `Variadic.sign_replicate` and `Variadic.joined_replicate` say what is inferred of arguments that
  are all alike.
* `Expr.entries_enumerate`: every entry stands at its position and nothing else does. One column of
  them all is inferred like `Expr.flatten`, as long as the expression is affine.
-/

namespace DisciplinedConvex
set_option autoImplicit false

/-! ## Positions -/

/-- Two loops, the inner one over `m` rounds, are one loop. -/
theorem flatMap_range_map_range {α : Type} (f : Nat → Nat → α) (m n : Nat) :
    ((List.range n).flatMap fun j => (List.range m).map fun i => f i j) =
      (List.range (m * n)).map fun k => f (k % m) (k / m) := by
  induction n with
  | zero => rw [Nat.mul_zero, List.range_zero, List.flatMap_nil, List.map_nil]
  | succ n ih =>
    rw [List.range_succ, List.flatMap_append, ih, List.flatMap_singleton, Nat.mul_succ,
      List.range_add, List.map_append, List.map_map]
    congr 1
    refine List.map_congr_left fun i hi => ?_
    have him : i < m := List.mem_range.1 hi
    rw [Function.comp_apply, Nat.mul_add_mod, Nat.mod_eq_of_lt him,
      Nat.mul_add_div (Nat.zero_lt_of_lt him), Nat.div_eq_of_lt him, Nat.add_zero]

namespace Shape

/-- The entries before this one if they are taken column by column. -/
def position (s : Shape) (i j : UInt64) : Nat := j.toNat * s.rows.toNat + i.toNat

variable {s : Shape} {i j : UInt64}

theorem position_lt (hi : i < s.rows) (hj : j < s.cols) : s.position i j < s.count := by
  rw [UInt64.lt_iff_toNat_lt] at hi hj
  calc j.toNat * s.rows.toNat + i.toNat
    _ < j.toNat * s.rows.toNat + s.rows.toNat := Nat.add_lt_add_left hi _
    _ = (j.toNat + 1) * s.rows.toNat := (Nat.succ_mul _ _).symm
    _ ≤ s.cols.toNat * s.rows.toNat := Nat.mul_le_mul_right _ hj
    _ = s.rows.toNat * s.cols.toNat := Nat.mul_comm _ _

theorem position_mod (hi : i < s.rows) : s.position i j % s.rows.toNat = i.toNat := by
  rw [position, Nat.mul_comm, Nat.mul_add_mod, Nat.mod_eq_of_lt (UInt64.lt_iff_toNat_lt.1 hi)]

theorem position_div (hi : i < s.rows) : s.position i j / s.rows.toNat = j.toNat := by
  rw [UInt64.lt_iff_toNat_lt] at hi
  rw [position, Nat.mul_comm, Nat.mul_add_div (Nat.zero_lt_of_lt hi), Nat.div_eq_of_lt hi,
    Nat.add_zero]

/-- The coordinates are below the dimensions, so that they are words. -/
theorem exists_position {k : Nat} (hk : k < s.count) :
    ∃ i j, i < s.rows ∧ j < s.cols ∧ s.position i j = k := by
  have hrow : k % s.rows.toNat < s.rows.toNat :=
    Nat.mod_lt k (Nat.pos_of_mul_pos_right (Nat.zero_lt_of_lt hk))
  have hcol : k / s.rows.toNat < s.cols.toNat := Nat.div_lt_of_lt_mul hk
  have hi := UInt64.toNat_ofNat_of_lt' (hrow.trans s.rows.toNat_lt)
  have hj := UInt64.toNat_ofNat_of_lt' (hcol.trans s.cols.toNat_lt)
  refine ⟨.ofNat (k % s.rows.toNat), .ofNat (k / s.rows.toNat), ?_, ?_, ?_⟩
  · rwa [UInt64.lt_iff_toNat_lt, hi]
  · rwa [UInt64.lt_iff_toNat_lt, hj]
  · rw [position, hi, hj, Nat.div_add_mod']

end Shape

/-! ## Arguments that are all alike -/

namespace Variadic

theorem sign_replicate (op : Variadic) {n : Nat} (hn : n ≠ 0) (s : Sign) :
    op.sign (List.replicate n s) = s := by
  have hne : List.replicate n s ≠ [] := by rwa [ne_eq, List.replicate_eq_nil_iff]
  apply Sign.eq_of_bounds
  · rw [Bool.eq_iff_iff, isNonneg_sign hne]
    simp [List.mem_replicate, hn]
  · rw [Bool.eq_iff_iff, isNonpos_sign hne]
    simp [List.mem_replicate, hn]

theorem joined_replicate (op : Variadic) {n : Nat} (hn : n ≠ 0) (c : Curvature) :
    op.joined (List.replicate n c) = op.part c := by
  induction n with
  | zero => exact absurd rfl hn
  | succ n ih =>
    rw [List.replicate_succ, joined_cons]
    by_cases hzero : n = 0
    · rw [hzero]
      exact Curvature.add_constant _
    · rw [ih hzero, Curvature.add_self]

theorem part_vstack (c : Curvature) : vstack.part c = if c.isAffine then c else .unknown := by
  cases c <;> rfl

theorem sum_rows_scalars (n : Nat) :
    ((List.replicate n Shape.scalar).map (·.rows.toNat)).sum = n := by
  rw [List.map_replicate, List.sum_replicate, smul_eq_mul]
  exact Nat.mul_one n

theorem accepts_vstack_scalars {n : Nat} (h : n < UInt64.size) :
    vstack.Accepts (List.replicate n .scalar) (.vector (.ofNat n)) := by
  refine ⟨fun s hs => ?_, ?_⟩
  · rw [List.eq_of_mem_replicate hs]
    rfl
  · rw [sum_rows_scalars]
    exact (UInt64.toNat_ofNat_of_lt' h).symm

theorem lt_of_accepts_vstack_scalars {n : Nat} {r : Shape}
    (h : vstack.Accepts (List.replicate n .scalar) r) : n < UInt64.size := by
  rw [← sum_rows_scalars n, h.2]
  exact r.rows.toNat_lt

end Variadic

namespace Expr

/-! ## Entries and indices -/

/-- The node of one entry, whether it is in bounds or not. -/
def entry (x : Expr) (i j : UInt64) : Expr := unary none (.index (.element i j)) x

variable {x e : Expr} {i j : UInt64}

theorem entry_inj {i' j' : UInt64} : x.entry i j = x.entry i' j' ↔ i = i' ∧ j = j' := by
  constructor
  · intro h
    injection h with _ hop _
    injection hop with hselection
    injection hselection with hrow hcol
    exact ⟨congrArg Span.start hrow, congrArg Span.start hcol⟩
  · rintro ⟨rfl, rfl⟩
    rfl

theorem attributes_entry (x : Expr) (i j : UInt64) : (x.entry i j).attributes = x.attributes :=
  attributes_index none _ x

theorem shape_entry (hi : i < x.shape.rows) (hj : j < x.shape.cols) :
    (x.entry i j).shape = .scalar := by
  have hfits := Selection.fits_element_iff.2 ⟨hi, hj⟩
  exact (shape_index hfits).trans (Selection.shape_element hfits)

theorem index_eq_ok_iff :
    x.index i j = .ok e ↔ (i < x.shape.rows ∧ j < x.shape.cols) ∧ e = x.entry i j := by
  rw [index, apply_index_eq_ok_iff, Selection.fits_element_iff]
  rfl

theorem entries_eq_map_range (x : Expr) : x.entries = (List.range x.shape.count).map fun k =>
    x.entry (.ofNat (k % x.shape.rows.toNat)) (.ofNat (k / x.shape.rows.toNat)) :=
  flatMap_range_map_range (fun i j => x.entry (.ofNat i) (.ofNat j)) _ _

theorem length_entries (x : Expr) : x.entries.length = x.shape.count := by
  rw [entries_eq_map_range, List.length_map, List.length_range]

theorem getElem?_entries (hi : i < x.shape.rows) (hj : j < x.shape.cols) :
    x.entries[x.shape.position i j]? = some (x.entry i j) := by
  rw [entries_eq_map_range, List.getElem?_map, List.getElem?_range (Shape.position_lt hi hj),
    Option.map_some, Shape.position_mod hi, Shape.position_div hi, UInt64.ofNat_toNat,
    UInt64.ofNat_toNat]

/-- What stands at some position is the entry with its coordinates. -/
theorem exists_entry_of_getElem? {k : Nat} (h : x.entries[k]? = some e) :
    ∃ i j, (i < x.shape.rows ∧ j < x.shape.cols) ∧ x.shape.position i j = k ∧
      e = x.entry i j := by
  obtain ⟨hk, -⟩ := List.getElem?_eq_some_iff.1 h
  rw [length_entries] at hk
  obtain ⟨i, j, hi, hj, rfl⟩ := Shape.exists_position hk
  rw [getElem?_entries hi hj] at h
  exact ⟨i, j, ⟨hi, hj⟩, rfl, (Option.some.inj h).symm⟩

theorem mem_entries_iff : e ∈ x.entries ↔ ∃ i j, x.index i j = .ok e := by
  simp only [index_eq_ok_iff]
  constructor
  · intro h
    obtain ⟨k, hk⟩ := List.getElem?_of_mem h
    obtain ⟨i, j, hbounds, -, he⟩ := exists_entry_of_getElem? hk
    exact ⟨i, j, hbounds, he⟩
  · rintro ⟨i, j, ⟨hi, hj⟩, rfl⟩
    exact List.mem_of_getElem? (getElem?_entries hi hj)

theorem nodup_entries (x : Expr) : x.entries.Nodup := by
  rw [List.nodup_iff_getElem?_ne_getElem?]
  intro k l hkl hl h
  rw [List.getElem?_eq_getElem hl] at h
  obtain ⟨i, j, -, hk, hentry⟩ := exists_entry_of_getElem? h
  obtain ⟨i', j', -, hl', hentry'⟩ := exists_entry_of_getElem? (List.getElem?_eq_getElem hl)
  obtain ⟨rfl, rfl⟩ := entry_inj.1 (hentry.symm.trans hentry')
  exact hkl.ne (hk.symm.trans hl')

theorem map_entries {β : Type} {f : Expr → β} {b : β}
    (hf : ∀ i j, i < x.shape.rows → j < x.shape.cols → f (x.entry i j) = b) :
    x.entries.map f = List.replicate x.shape.count b := by
  rw [List.eq_replicate_iff, List.length_map, length_entries]
  refine ⟨rfl, fun c hc => ?_⟩
  obtain ⟨e, he, rfl⟩ := List.mem_map.1 hc
  obtain ⟨i, j, hindex⟩ := mem_entries_iff.1 he
  obtain ⟨⟨hi, hj⟩, rfl⟩ := index_eq_ok_iff.1 hindex
  exact hf i j hi hj

/-! ## One column of all entries -/

theorem shapes_entries (x : Expr) :
    x.entries.map shape = List.replicate x.shape.count .scalar :=
  map_entries fun _ _ => shape_entry

theorem signs_entries (x : Expr) : x.entries.map sign = List.replicate x.shape.count x.sign :=
  map_entries fun i j _ _ => congrArg Attributes.sign (x.attributes_entry i j)

theorem curvatures_entries (x : Expr) :
    x.entries.map curvature = List.replicate x.shape.count x.curvature :=
  map_entries fun i j _ _ => congrArg Attributes.curvature (x.attributes_entry i j)

theorem accepts_entries (h : x.shape.count < UInt64.size) :
    Variadic.vstack.Accepts (x.entries.map shape) (.vector (.ofNat x.shape.count)) := by
  rw [shapes_entries]
  exact Variadic.accepts_vstack_scalars h

/-- There has to be an entry, and their number has to fit in a word. -/
theorem vstack_entries_succeeds_iff (x : Expr) :
    (∃ s, vstack x.entries = .ok s) ↔ 0 < x.shape.count ∧ x.shape.count < UInt64.size := by
  rw [vstack, apply_variadic_succeeds_iff, ← List.length_pos_iff, length_entries]
  refine and_congr_right fun _ => ⟨?_, fun h => ⟨_, accepts_entries h⟩⟩
  rintro ⟨r, hr⟩
  rw [shapes_entries] at hr
  exact Variadic.lt_of_accepts_vstack_scalars hr

theorem attributes_flatten (x : Expr) : x.flatten.attributes = x.attributes :=
  Unary.attributes_of_keeps (fun _ => rfl) rfl rfl x.attributes

section Column

variable {s : Expr} (h : vstack x.entries = .ok s)
include h

theorem count_of_vstack_entries : x.shape.count ≠ 0 ∧ x.shape.count < UInt64.size :=
  ((vstack_entries_succeeds_iff x).1 ⟨s, h⟩).imp_left Nat.ne_of_gt

theorem shape_vstack_entries : s.shape = x.flatten.shape := by
  have hcount := (count_of_vstack_entries h).2
  rw [shape_eq_of_accepts h (accepts_entries hcount), ← Shape.size_of_lt hcount]
  rfl

theorem sign_vstack_entries : s.sign = x.flatten.sign := by
  rw [sign_of_apply h, signs_entries, Variadic.sign_replicate _ (count_of_vstack_entries h).1]
  exact (congrArg Attributes.sign x.attributes_flatten).symm

theorem curvature_vstack_entries :
    s.curvature = if x.isAffine then x.flatten.curvature else .unknown := by
  have hflatten : x.flatten.curvature = x.curvature :=
    congrArg Attributes.curvature x.attributes_flatten
  rw [curvature_eq_joined h, curvatures_entries,
    Variadic.joined_replicate _ (count_of_vstack_entries h).1, Variadic.part_vstack, hflatten]
  rfl

end Column

/-- There are as many entries as rows times columns, all of them different, and the one that the
checked index makes stands at `col * rows + row`. Put together in one column, if there are any and
no more than a word can count, they have the shape and the sign of `flatten`. They have its
curvature too if the expression is affine, and none if it is not: a stack is not certified for
anything else. -/
theorem entries_enumerate (x : Expr) :
    x.entries.length = x.shape.rows.toNat * x.shape.cols.toNat ∧
    x.entries.Nodup ∧
    (∀ e, e ∈ x.entries ↔ ∃ row col, x.index row col = .ok e) ∧
    (∀ row col : UInt64, row < x.shape.rows → col < x.shape.cols →
      ∃ e, x.index row col = .ok e ∧
        x.entries[col.toNat * x.shape.rows.toNat + row.toNat]? = some e ∧
        e.atom? = some (.unary (.index (.element row col))) ∧ e.args = [x] ∧
        e.shape = .scalar ∧ e.sign = x.sign ∧ e.curvature = x.curvature) ∧
    ((∃ s, vstack x.entries = .ok s) ↔
      0 < x.shape.rows.toNat * x.shape.cols.toNat ∧
      x.shape.rows.toNat * x.shape.cols.toNat < UInt64.size) ∧
    ∀ s, vstack x.entries = .ok s →
      s.shape = x.flatten.shape ∧ s.sign = x.flatten.sign ∧
      s.curvature = if x.isAffine then x.flatten.curvature else .unknown := by
  refine ⟨x.length_entries, x.nodup_entries, fun _ => mem_entries_iff, ?_,
    x.vstack_entries_succeeds_iff, fun s h => ?_⟩
  · intro row col hrow hcol
    have hattributes := x.attributes_entry row col
    exact ⟨x.entry row col, index_eq_ok_iff.2 ⟨⟨hrow, hcol⟩, rfl⟩, getElem?_entries hrow hcol, rfl,
      rfl, shape_entry hrow hcol, congrArg Attributes.sign hattributes,
      congrArg Attributes.curvature hattributes⟩
  · exact ⟨shape_vstack_entries h, sign_vstack_entries h, curvature_vstack_entries h⟩

/-! ### Six entries -/

def sixEntries : Expr := var ⟨0, { shape := ⟨2, 3⟩ }⟩

/-- The last entry stands last. The column of the entries is affine as they are; with squares it is
still nonnegative, but no longer known to be convex. -/
theorem entries_enumerate_six :
    (∃ e, sixEntries.index 1 2 = .ok e ∧ sixEntries.entries[5]? = some e) ∧
    (∃ s, vstack sixEntries.entries = .ok s ∧ s.shape = sixEntries.flatten.shape ∧
      s.curvature = .affine) ∧
    ∃ s, vstack sixEntries.square.entries = .ok s ∧ s.sign = .positive ∧
      s.curvature = .unknown := by
  obtain ⟨-, -, -, hplace, hsucceeds, hcolumn⟩ := entries_enumerate sixEntries
  obtain ⟨-, -, -, -, hsucceeds', hcolumn'⟩ := entries_enumerate sixEntries.square
  refine ⟨?_, ?_, ?_⟩
  · obtain ⟨e, he, hat, -⟩ := hplace 1 2 (by decide) (by decide)
    exact ⟨e, he, hat⟩
  · obtain ⟨s, hs⟩ := hsucceeds.2 (by decide)
    obtain ⟨hshape, -, hcurvature⟩ := hcolumn s hs
    exact ⟨s, hs, hshape, hcurvature⟩
  · obtain ⟨s, hs⟩ := hsucceeds'.2 (by decide)
    obtain ⟨-, hsign, hcurvature⟩ := hcolumn' s hs
    exact ⟨s, hs, hsign, hcurvature⟩

end Expr

end DisciplinedConvex
