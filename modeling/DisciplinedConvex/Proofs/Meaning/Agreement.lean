import DisciplinedConvex.Proofs.Meaning.Evaluation
import DisciplinedConvex.Proofs.Meaning.Expr
import DisciplinedConvex.Proofs.Meaning.Real

/-! # Evaluation finds the value

A table has numbers outside of its dimensions too, and an operation on tables always gives a table.
Evaluation reads none of these numbers.

* `Grid.Matches` relates a grid to a table of the same dimensions with the same entries, and
  `Grid.Finds` says that a computation can end in nothing else.
* `Unary.finds_eval`, `Binary.finds_eval` and `Variadic.finds_eval` are the steps, and
  `Expr.eval_matches_value` is the statement for what the builders make.
-/

namespace DisciplinedConvex
set_option autoImplicit false

namespace Grid

variable {K : Type*}

structure Matches (x : Grid K) (a : Table K) : Prop where
  rows : x.rows = a.rows
  cols : x.cols = a.cols
  entry : ∀ i j, x.entry i j = a.entry (i, j)

/-- If the computation ends, then in a grid that matches the table. -/
def Finds (o : Option (Grid K)) (a : Table K) : Prop := ∀ x, o = some x → x.Matches a

variable {x y : Grid K} {a b : Table K} {o : Option (Grid K)}

theorem Matches.finds (h : x.Matches a) : Finds (some x) a := by
  rintro _ ⟨⟩
  exact h

theorem Finds.bind {f : Grid K → Option (Grid K)} (h : Finds o a)
    (hf : ∀ x, x.Matches a → Finds (f x) b) : Finds (o.bind f) b := by
  intro z hz
  obtain ⟨x, hx, hfx⟩ := Option.bind_eq_some_iff.1 hz
  exact hf x (h x hx) z hfx

theorem Finds.map {f : Grid K → Grid K} (h : Finds o a)
    (hf : ∀ x, x.Matches a → (f x).Matches b) : Finds (o.map f) b := by
  intro z hz
  obtain ⟨x, hx, rfl⟩ := Option.map_eq_some_iff.1 hz
  exact hf x (h x hx)

theorem finds_dite {c : Prop} [Decidable c] {g : c → Grid K} (h : ∀ hc, (g hc).Matches a) :
    Finds (if hc : c then some (g hc) else none) a := by
  split
  case isTrue hc => exact (h hc).finds
  case isFalse => exact fun _ hz => nomatch hz

/-! ## One grid -/

theorem matches_scalar (v : K) : (scalar v).Matches (.scalar v) := ⟨rfl, rfl, fun _ _ => rfl⟩

theorem Matches.map (f : K → K) (h : x.Matches a) : (x.map f).Matches (a.map f) :=
  ⟨h.rows, h.cols, fun i j => congrArg f (h.entry i j)⟩

theorem Matches.transpose (h : x.Matches a) :
    x.transpose.Matches ⟨a.cols, a.rows, fun p => a.entry p.swap⟩ :=
  ⟨h.cols, h.rows, fun i j => h.entry j i⟩

theorem Matches.isScalar_iff (h : x.Matches a) : (x.rows = 1 ∧ x.cols = 1) ↔ a.IsScalar := by
  rw [h.rows, h.cols, Table.IsScalar]

theorem Matches.single?_eq (h : x.Matches a) :
    x.single? = if a.IsScalar then some (a.entry (0, 0)) else none := by
  unfold single?
  by_cases hs : a.IsScalar
  · rw [if_pos hs, dif_pos (h.isScalar_iff.2 hs), h.entry]
  · rw [if_neg hs, dif_neg (mt h.isScalar_iff.1 hs)]

theorem finds_reshape? (h : x.Matches a) (target : Shape) :
    Finds (x.reshape? target.rows.toNat target.cols.toNat)
      ⟨target.rows.toNat, target.cols.toNat, fun p => a.entry (Unary.reshaped target a p)⟩ := by
  refine finds_dite fun hc => ⟨rfl, rfl, fun i j => ?_⟩
  simp only [h.entry]
  -- Column by column, both sides read the entry with number `i + rows * j`.
  congr 1
  simp [Unary.reshaped, h.rows, Nat.add_comm, Nat.mul_comm]

theorem finds_block? (h : x.Matches a) (top bottom left right : ℕ) :
    Finds (x.block? top bottom left right)
      ⟨bottom - top, right - left, fun p => a.entry (top + p.1, left + p.2)⟩ :=
  finds_dite fun _ => ⟨rfl, rfl, fun _ _ => h.entry _ _⟩

theorem finds_diag? [Zero K] (h : x.Matches a) : Finds x.diag?
    (if a.cols = 1 then ⟨a.rows, a.rows, fun p => if p.1 = p.2 then a.entry (p.1, 0) else 0⟩
      else ⟨a.rows, 1, fun p => a.entry (p.1, p.1)⟩) := by
  unfold diag?
  rw [← h.cols]
  by_cases hone : x.cols = 1
  · rw [dif_pos hone, if_pos hone]
    refine Matches.finds ⟨h.rows, h.rows, fun i j => ?_⟩
    simp only [Matrix.diagonal_apply, h.entry, Fin.ext_iff]
  · rw [dif_neg hone, if_neg hone]
    exact finds_dite fun _ => ⟨h.rows, rfl, fun _ _ => h.entry _ _⟩

section Sum

variable [AddCommMonoid K]

theorem Matches.total_eq (h : x.Matches a) : x.total = ∑ p ∈ a.positions, a.entry p := by
  unfold total Table.positions
  simp only [h.entry]
  rw [Finset.sum_product, ← h.rows, ← h.cols, Finset.sum_range]
  exact Finset.sum_congr rfl fun i _ => (Finset.sum_range fun j => a.entry (i, j)).symm

theorem finds_trace? (h : x.Matches a) :
    Finds x.trace? (.scalar (∑ i ∈ Finset.range a.rows, a.entry (i, i))) := by
  refine finds_dite fun _ => ?_
  simp only [h.entry]
  rw [← h.rows, Finset.sum_range]
  exact matches_scalar _

end Sum

theorem Matches.maxAbs_eq [Field K] [LinearOrder K] (h : x.Matches a) :
    x.maxAbs = DisciplinedConvex.maxAbs a.positions a.entry := by
  refine eq_of_forall_ge_iff fun c => ?_
  rw [maxAbs_le_iff, maxAbs, Finset.fold_max_le]
  refine and_congr_right fun _ => ⟨fun hc p hp => ?_, fun hc p _ => ?_⟩
  · rw [Table.mem_positions, ← h.rows, ← h.cols] at hp
    have hp' := hc (⟨p.1, hp.1⟩, ⟨p.2, hp.2⟩) (Finset.mem_univ _)
    rwa [h.entry] at hp'
  · rw [h.entry]
    refine hc _ (Table.mem_positions.2 ?_)
    rw [← h.rows, ← h.cols]
    exact ⟨p.1.2, p.2.2⟩

/-! ## Two grids -/

theorem Matches.mem_positions (h : x.Matches a) (i : Fin x.rows) (j : Fin x.cols) :
    ((i : ℕ), (j : ℕ)) ∈ a.positions := by
  rw [Table.mem_positions, ← h.rows, ← h.cols]
  exact ⟨i.2, j.2⟩

/-- What is found for two scalars or one is the table entry by entry. -/
theorem finds_promote? {f : K → K → K} {rest : Option (Grid K)} {c : Table K} (hx : x.Matches a)
    (hy : y.Matches b) (hc : a.IsScalar ∨ b.IsScalar → c = .broadcast f a b)
    (hrest : ¬ (a.IsScalar ∨ b.IsScalar) → Finds rest c) : Finds (promote? f rest x y) c := by
  unfold promote?
  rw [hx.single?_eq, hy.single?_eq]
  -- A scalar is read at its only position, another table at the position that is asked for.
  by_cases ha : a.IsScalar
  · rw [if_pos ha, hc (.inl ha), Table.broadcast_of_isScalar f ha]
    refine Matches.finds ⟨hy.rows, hy.cols, fun (i : Fin y.rows) (j : Fin y.cols) => ?_⟩
    change f _ (y.entry i j) = f _ (b.entry (b.place (i, j)))
    rw [Table.place_eq (hy.mem_positions i j), hy.entry]
  · rw [if_neg ha]
    by_cases hb : b.IsScalar
    · rw [if_pos hb, hc (.inr hb), Table.broadcast_of_not_isScalar f ha]
      refine Matches.finds ⟨hx.rows, hx.cols, fun (i : Fin x.rows) (j : Fin x.cols) => ?_⟩
      change f (x.entry i j) _ = f (a.entry (i, j)) (b.entry (b.place (i, j)))
      rw [Table.place, if_pos hb, hx.entry]
    · rw [if_neg hb]
      exact hrest (not_or.2 ⟨ha, hb⟩)

theorem finds_combine? (f : K → K → K) (hx : x.Matches a) (hy : y.Matches b) :
    Finds (combine? f x y) (.broadcast f a b) := by
  refine finds_promote? hx hy (fun _ => rfl) fun hs => finds_dite fun hdims => ?_
  rw [not_or] at hs
  rw [Table.broadcast_of_not_isScalar f hs.1]
  refine ⟨hx.rows, hx.cols, fun i j => ?_⟩
  change f (x.entry i j) (y.entry _ _) = f (a.entry (i, j)) (b.entry (b.place (i, j)))
  rw [Table.place, if_neg hs.2, hx.entry, hy.entry]
  rfl

theorem finds_above? (hx : x.Matches a) (hy : y.Matches b) : Finds (above? x y) (.above a b) := by
  refine finds_dite fun _ => ⟨congrArg₂ _ hx.rows hy.rows, hx.cols, fun i j => ?_⟩
  simp only [Table.above, ← hx.rows]
  refine i.addCases (fun i => ?_) fun i => ?_
  · rw [Fin.addCases_left, hx.entry, Fin.val_castAdd, if_pos i.2]
  · rw [Fin.addCases_right, hy.entry, Fin.val_natAdd, if_neg (by omega), Nat.add_sub_cancel_left]
    rfl

theorem finds_beside? (hx : x.Matches a) (hy : y.Matches b) :
    Finds (beside? x y) (.beside a b) := by
  refine (finds_above? hx.transpose hy.transpose).map fun z hz => ?_
  exact ⟨hz.cols, hz.rows, fun i j => hz.entry j i⟩

section Product

variable [Field K]

theorem finds_matmul? (hx : x.Matches a) (hy : y.Matches b) :
    Finds (matmul? x y) (Binary.matmul.table a b) := by
  refine finds_promote? hx hy (fun hs => if_pos hs) fun hs => finds_dite fun hinner => ?_
  rw [Binary.table, if_neg hs]
  refine ⟨hx.rows, hy.cols, fun i j => ?_⟩
  simp only [Matrix.mul_apply, Matrix.submatrix_apply, id, hx.entry, hy.entry]
  rw [← hx.cols, Finset.sum_range]
  rfl

theorem finds_form? (hx : x.Matches a) (hy : y.Matches b) :
    Finds (form? x y) (Binary.quadForm.table a b) := by
  refine finds_dite fun hdims => ?_
  rw [Binary.table, ← hx.rows, Finset.sum_range]
  simp only [hx.entry, hy.entry, Finset.sum_range]
  exact matches_scalar _

end Product

end Grid

/-! ## Steps -/

open Grid

variable {K : Type*} [Field K] [LinearOrder K]

/-- The scalar functions of a textbook. -/
def Textbook.functions (S : Textbook K) : Functions K := ⟨S.exp, S.log, S.sqrt, S.entropy, S.power⟩

/-- Both norms are roots of sums of squares. -/
structure Textbook.IsEuclidean (S : Textbook K) : Prop where
  norm2 : ∀ s x, S.norm2 s x = S.sqrt (∑ p ∈ s, x p ^ 2)
  normFro : ∀ s x, S.normFro s x = S.sqrt (∑ p ∈ s, x p ^ 2)

theorem RealFunctions.isEuclidean_textbook : textbook.IsEuclidean := ⟨fun _ _ => rfl, fun _ _ => rfl⟩

variable {S : Textbook K} {x y : Grid K} {a b : Table K}

theorem Unary.finds_eval (hS : S.IsEuclidean) (op : Unary) (h : x.Matches a) :
    Finds (op.eval S.functions x) (op.table S a) := by
  cases op
  case reshape target => exact finds_reshape? h target
  case index selection => exact finds_block? h _ _ _ _
  case trace => exact finds_trace? h
  case diag => exact finds_diag? h
  case transpose => exact h.transpose.finds
  case sum =>
    rw [eval, h.total_eq]
    exact (matches_scalar _).finds
  case norm1 =>
    rw [eval, (h.map _).total_eq]
    exact (matches_scalar _).finds
  case norm2 =>
    rw [eval, (h.map _).total_eq, table, hS.norm2]
    exact (matches_scalar _).finds
  case normInf =>
    rw [eval, h.maxAbs_eq]
    exact (matches_scalar _).finds
  case normFro =>
    rw [eval, (h.map _).total_eq, table, hS.normFro]
    exact (matches_scalar _).finds
  case sumSquares =>
    rw [eval, (h.map _).total_eq]
    exact (matches_scalar _).finds
  all_goals exact (h.map _).finds

omit [LinearOrder K] in
theorem Binary.finds_eval (op : Binary) (hx : x.Matches a) (hy : y.Matches b) :
    Finds (op.eval x y) (op.table a b) := by
  cases op with
  | add => exact finds_combine? _ hx hy
  | mul => exact finds_combine? _ hx hy
  | matmul => exact finds_matmul? hx hy
  | quadOverLin =>
    intro z hz
    rw [eval, hy.single?_eq] at hz
    split at hz
    case isTrue =>
      cases hz
      rw [(hx.map _).total_eq]
      exact matches_scalar _
    case isFalse => cases hz
  | quadForm => exact finds_form? hx hy

omit [Field K] in
theorem Variadic.finds_combine? (op : Variadic) (hx : x.Matches a) (hy : y.Matches b) :
    Finds (op.combine? x y) (op.combine a b) := by
  cases op with
  | vstack => exact finds_above? hx hy
  | hstack => exact finds_beside? hx hy
  | maximum => exact Grid.finds_combine? _ hx hy
  | minimum => exact Grid.finds_combine? _ hx hy

omit [Field K] in
theorem Variadic.finds_eval (op : Variadic) {ys : List (Grid K)} {bs : List (Table K)}
    (hx : x.Matches a) (hys : List.Forall₂ Matches ys bs) :
    Finds (op.eval x ys) (op.table a bs) := by
  induction hys generalizing x a with
  | nil => exact hx.finds
  | cons hy _ ih =>
    rw [eval, List.foldlM_cons]
    exact (op.finds_combine? hx hy).bind fun z hz => ih hz

/-! ## Expressions -/

/-- The entries of every variable inside of its declared shape. -/
def Point.valuation (ρ : Point K) : Valuation K := fun v i j => ρ v.id (i, j)

namespace Expr

variable (ρ : Point K)

theorem matches_evals {xs : List Expr}
    (h : ∀ x ∈ xs, Finds (x.eval S.functions ρ.valuation) (x.value S ρ)) {ys : List (Grid K)}
    (hys : evals S.functions ρ.valuation xs = some ys) :
    List.Forall₂ Matches ys (xs.map (value S ρ)) := by
  induction xs generalizing ys with
  | nil =>
    cases hys
    exact .nil
  | cons x xs ih =>
    obtain ⟨z, hz, hrest⟩ := Option.bind_eq_some_iff.1 hys
    obtain ⟨zs, hzs, rfl⟩ := Option.map_eq_some_iff.1 hrest
    exact .cons (h x List.mem_cons_self z hz)
      (ih (fun y hy => h y (List.mem_cons_of_mem x hy)) hzs)

/-- Evaluation finds nothing but the value, for every expression. -/
theorem finds_eval (hS : S.IsEuclidean) (e : Expr) :
    Finds (e.eval S.functions ρ.valuation) (e.value S ρ) := by
  induction e with
  | var v => exact Matches.finds ⟨rfl, rfl, fun _ _ => rfl⟩
  | const id v => exact Matches.finds ⟨rfl, rfl, fun _ _ => rfl⟩
  | unary label op x ih => exact ih.bind fun _ ha => op.finds_eval hS ha
  | binary label op x y ihx ihy =>
    exact ihx.bind fun _ ha => ihy.bind fun _ hb => op.finds_eval ha hb
  | variadic label op x xs ihx ihxs =>
    rw [value, values_eq_map]
    refine ihx.bind fun z hz w hw => ?_
    obtain ⟨zs, hzs, hw⟩ := Option.bind_eq_some_iff.1 hw
    exact op.finds_eval hz (matches_evals ρ ihxs hzs) w hw

/-- Over the real numbers, the value of what the builders make is found. -/
theorem eval_matches_value (ρ : Point ℝ) {e : Expr} (he : e.Built) (hf : e.Everywhere FitsWord) :
    ∃ x, e.eval RealFunctions.textbook.functions ρ.valuation = some x ∧
      x.Matches (e.value RealFunctions.textbook ρ) := by
  obtain ⟨x, hx, -⟩ := ends_eval RealFunctions.textbook.functions ρ.valuation (he.isValid hf)
  exact ⟨x, hx, finds_eval ρ RealFunctions.isEuclidean_textbook e x hx⟩

end Expr

end DisciplinedConvex
