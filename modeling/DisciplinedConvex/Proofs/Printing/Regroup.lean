import DisciplinedConvex.Proofs.Checked
import DisciplinedConvex.Proofs.Printing.Root

/-! # What the print of an expression leaves open

* `Expr.Regrouped` is that two trees differ in the brackets of their sums only, labels aside.
* `Expr.terms` are the terms of a sum of sums, and trees with regrouped terms are regrouped
  (`Expr.Regrouped.of_terms`).
* `Expr.text_eq_iff_regrouped`: two expressions of variables print the same exactly when they are
  regrouped, if the variables have names that are identifiers and differ.
-/

namespace DisciplinedConvex
set_option autoImplicit false

open Piece

namespace Expr

/-- The same tree but for the brackets of nested sums. Labels are not compared. -/
inductive Regrouped : Expr → Expr → Prop where
  | var (v : Variable) : Regrouped (var v) (var v)
  | const (id : Nat) (v : Value) : Regrouped (const id v) (const id v)
  | unary (label label' : Option Nat) {op : Unary} {x x' : Expr} (hx : Regrouped x x') :
    Regrouped (unary label op x) (unary label' op x')
  | binary (label label' : Option Nat) {op : Binary} {x x' y y' : Expr} (hx : Regrouped x x')
    (hy : Regrouped y y') : Regrouped (binary label op x y) (binary label' op x' y')
  | variadic (label label' : Option Nat) {op : Variadic} {x x' : Expr} {pairs : List (Expr × Expr)}
    (hx : Regrouped x x') (hpairs : ∀ q ∈ pairs, Regrouped q.1 q.2) :
    Regrouped (variadic label op x (pairs.map Prod.fst))
      (variadic label' op x' (pairs.map Prod.snd))
  | assoc (outer inner outer' inner' : Option Nat) (x y z : Expr) :
    Regrouped (binary outer .add (binary inner .add x y) z)
      (binary outer' .add x (binary inner' .add y z))
  | symm {e f : Expr} (h : Regrouped e f) : Regrouped f e
  | trans {e f g : Expr} (h : Regrouped e f) (h' : Regrouped f g) : Regrouped e g

theorem Regrouped.of_forall₂ (label label' : Option Nat) {op : Variadic} {x x' : Expr}
    {xs xs' : List Expr} (hx : Regrouped x x') (hxs : List.Forall₂ Regrouped xs xs') :
    Regrouped (Expr.variadic label op x xs) (Expr.variadic label' op x' xs') := by
  obtain ⟨pairs, rfl, rfl, hpairs⟩ : ∃ pairs : List (Expr × Expr), pairs.map Prod.fst = xs ∧
      pairs.map Prod.snd = xs' ∧ ∀ q ∈ pairs, Regrouped q.1 q.2 := by
    induction hxs with
    | nil => exact ⟨[], rfl, rfl, fun _ hq => nomatch hq⟩
    | cons h _ ih =>
      obtain ⟨pairs, rfl, rfl, hpairs⟩ := ih
      exact ⟨(_, _) :: pairs, rfl, rfl, List.forall_mem_cons.2 ⟨h, hpairs⟩⟩
  exact .variadic _ _ hx hpairs

theorem Regrouped.refl (e : Expr) : Regrouped e e := by
  induction e with
  | var v => exact .var v
  | const id v => exact .const id v
  | unary label op x ih => exact .unary _ _ ih
  | binary label op x y ihx ihy => exact .binary _ _ ihx ihy
  | variadic label op x xs ihx ihxs => exact .of_forall₂ _ _ ihx (List.forall₂_same.2 ihxs)

/-! ## Regrouped expressions print the same -/

/-- No operand of a sum is put in parentheses. -/
theorem operand_sum (e : Expr) : operand e.pieces e.binding Binding.sum = e.pieces := by
  rw [operand, if_neg (Nat.not_lt.2 e.sum_le_binding)]

theorem pieces_sum (label : Option Nat) (x y : Expr) :
    (binary label .add x y).pieces = x.pieces ++ plain [' ', '+', ' '] ++ y.pieces := by
  rw [pieces, Binary.pieces, operand_sum, operand_sum]

theorem Regrouped.pieces_eq {e f : Expr} (h : Regrouped e f) :
    e.pieces = f.pieces ∧ e.binding = f.binding := by
  induction h with
  | var v => exact ⟨rfl, rfl⟩
  | const id v => exact ⟨rfl, rfl⟩
  | unary _ _ _ ih => exact ⟨by rw [pieces, pieces, ih.1, ih.2], rfl⟩
  | binary _ _ _ _ ihx ihy => exact ⟨by rw [pieces, pieces, ihx.1, ihx.2, ihy.1, ihy.2], rfl⟩
  | @variadic _ _ op x x' pairs _ _ ihx ihpairs =>
    refine ⟨?_, rfl⟩
    have hpairs : (pairs.map Prod.fst).map pieces = (pairs.map Prod.snd).map pieces := by
      rw [List.map_map, List.map_map]
      exact List.map_congr_left fun q hq => (ihpairs q hq).1
    rw [pieces, pieces, piecesOf_eq_map, piecesOf_eq_map, ihx.1, hpairs]
  | assoc _ _ _ _ x y z =>
    refine ⟨?_, rfl⟩
    simp only [pieces_sum, List.append_assoc]
  | symm _ ih => exact ⟨ih.1.symm, ih.2.symm⟩
  | trans _ _ ih ih' => exact ⟨ih.1.trans ih'.1, ih.2.trans ih'.2⟩

theorem Regrouped.text_eq {e f : Expr} (h : Regrouped e f) : e.text = f.text := by
  rw [← String.toList_inj, ← charsOf_pieces, ← charsOf_pieces, h.pieces_eq.1]

/-! ## Terms -/

/-- The terms of nested sums from left to right. -/
def terms : Expr → List Expr
  | binary _ .add x y => x.terms ++ y.terms
  | e => [e]

/-- The sum of a term and more terms, from the right. -/
def total (x : Expr) : List Expr → Expr
  | [] => x
  | y :: ys => binary none .add x (total y ys)

theorem regrouped_total_append (label : Option Nat) (x : Expr) (xs : List Expr) (y : Expr)
    (ys : List Expr) :
    Regrouped (binary label .add (total x xs) (total y ys)) (total x (xs ++ y :: ys)) := by
  induction xs generalizing x label with
  | nil => exact .binary _ _ (.refl _) (.refl _)
  | cons z xs ih => exact .trans (.assoc _ _ none none _ _ _) (.binary _ _ (.refl _) (ih none z))

theorem terms_cases (e : Expr) : (∃ label x y, e = binary label .add x y) ∨
    e.terms = [e] ∧ e.binding ≠ Binding.sum := by
  cases e with
  | unary label op x => exact .inr ⟨rfl, by cases op <;> exact Nat.ne_of_beq_eq_false rfl⟩
  | binary label op x y =>
    cases op
    case add => exact .inl ⟨label, x, y, rfl⟩
    all_goals exact .inr ⟨rfl, Nat.ne_of_beq_eq_false rfl⟩
  | _ => exact .inr ⟨rfl, Nat.ne_of_beq_eq_false rfl⟩

theorem exists_regrouped_total (e : Expr) :
    ∃ x xs, e.terms = x :: xs ∧ Regrouped e (total x xs) := by
  induction e using args_induction with
  | step e ih =>
    rcases e.terms_cases with ⟨label, x, y, rfl⟩ | ⟨hterms, -⟩
    · obtain ⟨u, us, hus, hx⟩ := ih x (by simp [args])
      obtain ⟨w, ws, hws, hy⟩ := ih y (by simp [args])
      refine ⟨u, us ++ w :: ws, by rw [terms, hus, hws, List.cons_append], ?_⟩
      exact .trans (.binary label label hx hy) (regrouped_total_append label u us w ws)
    · exact ⟨e, [], hterms, .refl e⟩

theorem total_congr {x y : Expr} {xs ys : List Expr} (h : Regrouped x y)
    (hs : List.Forall₂ Regrouped xs ys) : Regrouped (total x xs) (total y ys) := by
  induction hs generalizing x y with
  | nil => exact h
  | cons h' _ ih => exact .binary _ _ h (ih h')

theorem Regrouped.of_terms {e f : Expr} (h : List.Forall₂ Regrouped e.terms f.terms) :
    Regrouped e f := by
  obtain ⟨x, xs, hx, he⟩ := e.exists_regrouped_total
  obtain ⟨y, ys, hy, hf⟩ := f.exists_regrouped_total
  rw [hx, hy] at h
  cases h with
  | cons h hs => exact he.trans ((total_congr h hs).trans hf.symm)

/-! ## The terms of a printed sum -/

section Terms

variable {e t : Expr}

theorem terms_ne_nil (e : Expr) : e.terms ≠ [] := by
  obtain ⟨x, xs, h, -⟩ := e.exists_regrouped_total
  rw [h]
  exact List.cons_ne_nil _ _

theorem reaches_of_mem_terms (ht : t ∈ e.terms) : e.Reaches t := by
  induction e using args_induction with
  | step e ih =>
    rcases e.terms_cases with ⟨label, x, y, rfl⟩ | ⟨hterms, -⟩
    · rcases List.mem_append.1 ht with hx | hy
      · exact .head (b := x) (by simp [args]) (ih x (by simp [args]) hx)
      · exact .head (b := y) (by simp [args]) (ih y (by simp [args]) hy)
    · rw [hterms, List.mem_singleton] at ht
      exact ht ▸ .refl

theorem binding_of_mem_terms (ht : t ∈ e.terms) : t.binding ≠ Binding.sum := by
  induction e using args_induction with
  | step e ih =>
    rcases e.terms_cases with ⟨label, x, y, rfl⟩ | ⟨hterms, hbinding⟩
    · rcases List.mem_append.1 ht with hx | hy
      · exact ih x (by simp [args]) hx
      · exact ih y (by simp [args]) hy
    · rw [hterms, List.mem_singleton] at ht
      exact ht ▸ hbinding

theorem pieces_eq_intercalate (e : Expr) :
    e.pieces = (plain [' '] ++ char '+' :: plain [' ']).intercalate (e.terms.map pieces) := by
  induction e using args_induction with
  | step e ih =>
    rcases e.terms_cases with ⟨label, x, y, rfl⟩ | ⟨hterms, -⟩
    · rw [pieces_sum, terms, List.map_append, intercalate_append
        (mt List.map_eq_nil_iff.1 x.terms_ne_nil) (mt List.map_eq_nil_iff.1 y.terms_ne_nil),
        ← ih x (by simp [args]), ← ih y (by simp [args])]
      rfl
    · rw [hterms, List.map_singleton, List.intercalate_singleton]

theorem Everywhere.of_reaches {P : Expr → Prop} {x : Expr} (he : e.Everywhere P)
    (hx : e.Reaches x) : x.Everywhere P :=
  hx.keep (fun _ h => (everywhere_iff.1 h).2) he

theorem mem_leaves_of_reaches {x : Expr} (hx : e.Reaches x) {v : Variable} (hv : v ∈ x.leaves) :
    v ∈ e.leaves :=
  mem_leaves_iff.2 (hx.trans (mem_leaves_iff.1 hv))

theorem plus_notMem_pieces (he : e.Everywhere IsLegible) (ht : t ∈ e.terms) :
    char '+' ∉ t.pieces := fun hm => by
  have hle := binding_le_of_mem (he.of_reaches (reaches_of_mem_terms ht)) hm
  exact binding_of_mem_terms ht (Nat.le_antisymm hle t.sum_le_binding)

/-- The terms can be read off a printed sum. -/
theorem map_terms_eq_of_pieces {f : Expr} (he : e.Everywhere IsLegible)
    (hf : f.Everywhere IsLegible) (h : e.pieces = f.pieces) :
    e.terms.map pieces = f.terms.map pieces := by
  have hplus : ∀ {g : Expr}, g.Everywhere IsLegible → ∀ p ∈ g.terms.map pieces, char '+' ∉ p := by
    intro g hg p hp
    obtain ⟨t, ht, rfl⟩ := List.mem_map.1 hp
    exact plus_notMem_pieces hg ht
  rw [pieces_eq_intercalate e, pieces_eq_intercalate f] at h
  exact eq_of_intercalate (by simp [plain]) (hplus he) (hplus hf)
    (mt List.map_eq_nil_iff.1 e.terms_ne_nil) (mt List.map_eq_nil_iff.1 f.terms_ne_nil) h

end Terms

/-! ## Reading a printed expression -/

/-- Whatever prints the same, its variables told apart by their names, is regrouped. -/
def IsReadable (e : Expr) : Prop :=
  ∀ f : Expr, f.Everywhere IsLegible →
    (∀ v ∈ e.leaves, ∀ w ∈ f.leaves, v.name = w.name → v = w) → e.pieces = f.pieces →
    Regrouped e f

theorem forall₂_regrouped {e f : Expr} {xs ys : List Expr}
    (hx : ∀ x ∈ xs, e.Reaches x ∧ x.IsReadable)
    (hy : ∀ y ∈ ys, f.Reaches y) (hf : f.Everywhere IsLegible)
    (hnames : ∀ v ∈ e.leaves, ∀ w ∈ f.leaves, v.name = w.name → v = w)
    (h : xs.map pieces = ys.map pieces) : List.Forall₂ Regrouped xs ys := by
  induction xs generalizing ys with
  | nil =>
    cases ys with
    | nil => exact .nil
    | cons y ys => cases h
  | cons x xs ih =>
    cases ys with
    | nil => cases h
    | cons y ys =>
      rw [List.forall_mem_cons] at hx hy
      obtain ⟨hhead, htail⟩ := List.cons.inj h
      refine .cons (hx.1.2 y (hf.of_reaches hy.1) ?_ hhead) (ih hx.2 hy.2 htail)
      exact fun v hv w hw =>
        hnames v (mem_leaves_of_reaches hx.1.1 hv) w (mem_leaves_of_reaches hy.1 hw)

theorem isReadable_of_terms {e : Expr} (he : e.Everywhere IsLegible)
    (h : ∀ t ∈ e.terms, t.IsReadable) : e.IsReadable := fun _ hf hnames heq =>
  .of_terms (forall₂_regrouped (fun t ht => ⟨reaches_of_mem_terms ht, h t ht⟩)
    (fun _ => reaches_of_mem_terms) hf hnames (map_terms_eq_of_pieces he hf heq))

theorem Regrouped.of_atom {e f : Expr} {a : Atom} (he : e.atom? = some a) (hf : f.atom? = some a)
    (hargs : List.Forall₂ Regrouped e.args f.args) : Regrouped e f := by
  cases e with
  | var v => cases he
  | const id v => cases he
  | unary label op x =>
    cases he
    cases f <;> cases hf
    cases hargs with
    | cons hx _ => exact .unary _ _ hx
  | binary label op x y =>
    cases he
    cases f <;> cases hf
    cases hargs with
    | cons hx hrest =>
      cases hrest with
      | cons hy _ => exact .binary _ _ hx hy
  | variadic label op x xs =>
    cases he
    cases f <;> cases hf
    cases hargs with
    | cons hx hxs => exact .of_forall₂ _ _ hx hxs

theorem isReadable_of_args {e : Expr} (he : e.Everywhere IsLegible) (hsum : e.binding ≠ Binding.sum)
    (h : ∀ x ∈ e.args, x.IsReadable) : e.IsReadable := by
  intro f hf hnames heq
  rcases root_eq_of_pieces he hf heq hsum with ⟨v, w, rfl, rfl, hname⟩ | ⟨⟨a, ha, ha'⟩, hargs⟩
  · rw [hnames v List.mem_cons_self w List.mem_cons_self hname]
    exact .refl _
  · have hreach : ∀ {g : Expr}, ∀ x ∈ g.args, g.Reaches x := fun x hx => .single hx
    exact .of_atom ha ha' (forall₂_regrouped (fun x hx => ⟨hreach x hx, h x hx⟩) hreach hf hnames
      hargs)

theorem isReadable {e : Expr} (he : e.Everywhere IsLegible) : e.IsReadable := by
  have hterms : ∀ t ∈ e.terms, t.IsReadable := by
    induction e using args_induction with
    | step e ih =>
      have hargs : ∀ x ∈ e.args, x.IsReadable := fun x hx =>
        isReadable_of_terms ((everywhere_iff.1 he).2 x hx) (ih x hx ((everywhere_iff.1 he).2 x hx))
      rcases e.terms_cases with ⟨label, x, y, rfl⟩ | ⟨hterms, hbinding⟩
      · obtain ⟨-, hx, hy⟩ := everywhere_binary.1 he
        exact List.forall_mem_append.2 ⟨ih x (by simp [args]) hx, ih y (by simp [args]) hy⟩
      · rw [hterms]
        exact List.forall_mem_singleton.2 (isReadable_of_args he hbinding hargs)
  exact isReadable_of_terms he hterms

end Expr

/-! ## Expressions from the builders -/

theorem Unary.isChecked_of_valid {op : Unary} {s t : Shape} (hp : op.checkParameter = .ok ())
    (hs : op.shape? s = .ok t) : op.IsChecked := by
  cases op
  case index selection =>
    rw [shape?] at hs
    split at hs
    case isTrue hfits =>
      simp only [Selection.fits, Bool.and_eq_true, Bool.not_eq_true'] at hfits
      exact hfits.1.1
    case isFalse => cases hs
  case power p =>
    rw [checkParameter] at hp
    split at hp
    case isTrue => cases hp
    case isFalse hdomain => simpa [IsChecked] using hdomain
  all_goals trivial

namespace Expr

/-- The parameter of the root passes its check, if it has one. -/
def HasCheckedRoot (e : Expr) : Prop := ∀ label op x, e = unary label op x → op.IsChecked

theorem hasCheckedRoot_of_isValid {e : Expr} (h : e.IsValid) : e.HasCheckedRoot := by
  rintro label op x rfl
  obtain ⟨hp, hs⟩ := isValid_unary.1 h
  exact Unary.isChecked_of_valid hp hs

theorem Built.hasCheckedRoot {e : Expr} (he : e.Built) : e.HasCheckedRoot := by
  induction he with
  | var v => exact fun _ _ _ h => nomatch h
  | const id v => exact fun _ _ _ h => nomatch h
  | apply _ h _ => exact hasCheckedRoot_of_isValid (isValid_of_apply_eq_ok h)
  | @unary f x e _ h _ =>
    cases f
    case trace => exact hasCheckedRoot_of_isValid (@isValid_of_apply_eq_ok (.unary .trace) [x] e h)
    case diag => exact hasCheckedRoot_of_isValid (@isValid_of_apply_eq_ok (.unary .diag) [x] e h)
    all_goals
      cases h
      rintro _ _ _ ⟨⟩
      trivial
  | entry _ h _ => exact hasCheckedRoot_of_isValid (isValid_entry h).1
  | @held e _ label ih =>
    cases e with
    | unary label' op x =>
      rintro _ _ _ ⟨⟩
      exact ih _ _ _ rfl
    | _ => exact fun _ _ _ h => nomatch h

/-- Valid applications all the way down can be built. -/
theorem Built.of_isValid {e : Expr} (h : e.Everywhere IsValid) : e.Built := by
  induction e using args_induction with
  | step e ih =>
    obtain ⟨hvalid, hargs⟩ := everywhere_iff.1 h
    cases ha : e.atom? with
    | none =>
      cases e with
      | var v => exact .var v
      | const id v => exact .const id v
      | _ => cases ha
    | some atom =>
      obtain ⟨s, hs⟩ := hvalid atom ha
      have hbuilt := Built.apply (fun x hx => ih x hx (hargs x hx)) (apply_eq_of_validate ha hs)
      obtain ⟨label, hlabel⟩ : ∃ label, (e.withLabel none).withLabel label = e := by
        cases e with
        | var v => cases ha
        | const id v => cases ha
        | _ => exact ⟨_, rfl⟩
      exact hlabel ▸ hbuilt.held label

theorem Built.isLegible {e : Expr} (he : e.Built)
    (hconst : ∀ y ∈ e.nodes, y.isConstantLeaf = false)
    (hnames : ∀ v ∈ e.leaves, Text.isIdentifier v.name = true) : e.Everywhere IsLegible := by
  intro y hy
  have hreach := reaches_iff.2 hy
  cases y with
  | var v => exact hnames v (mem_leaves_iff.2 hreach)
  | const id v => exact absurd (hconst _ hy) (by simp [isConstantLeaf, value?])
  | unary label op x => exact (he.of_reaches hreach).hasCheckedRoot _ _ _ rfl
  | binary label op x y => trivial
  | variadic label op x xs => trivial

/-- Two expressions of variables print the same exactly when they are regrouped. Unless they are
sums they have the same atom then, and regrouped arguments. -/
theorem text_eq_iff_regrouped {e f : Expr} (he : e.Built) (hf : f.Built)
    (hconst : ∀ y ∈ e.nodes ++ f.nodes, y.isConstantLeaf = false)
    (hident : ∀ v ∈ e.leaves ++ f.leaves, Text.isIdentifier v.name = true)
    (hnames : ∀ v ∈ e.leaves ++ f.leaves, ∀ w ∈ e.leaves ++ f.leaves, v.name = w.name → v = w) :
    (e.text = f.text ↔ Regrouped e f) ∧
      (e.text = f.text → e.atom? ≠ some (.binary .add) →
        e.atom? = f.atom? ∧ List.Forall₂ Regrouped e.args f.args) := by
  rw [List.forall_mem_append] at hconst hident
  have he := he.isLegible hconst.1 hident.1
  have hf := hf.isLegible hconst.2 hident.2
  have hnames : ∀ v ∈ e.leaves, ∀ w ∈ f.leaves, v.name = w.name → v = w := fun v hv w hw =>
    hnames v (List.mem_append_left _ hv) w (List.mem_append_right _ hw)
  have hpieces : e.text = f.text → e.pieces = f.pieces := fun h => by
    rw [← (proper_pieces he).charsOf_inj (proper_pieces hf), charsOf_pieces, charsOf_pieces, h]
  refine ⟨⟨fun h => isReadable he f hf hnames (hpieces h), Regrouped.text_eq⟩, fun h hadd => ?_⟩
  have hsum : e.binding ≠ Binding.sum := by
    rcases e.terms_cases with ⟨label, x, y, rfl⟩ | ⟨-, hsum⟩
    · exact absurd rfl hadd
    · exact hsum
  rcases root_eq_of_pieces he hf (hpieces h) hsum with ⟨v, w, rfl, rfl, -⟩ | ⟨⟨a, ha, ha'⟩, hargs⟩
  · exact ⟨rfl, .nil⟩
  · refine ⟨ha.trans ha'.symm, forall₂_regrouped (fun x hx => ?_) (fun _ hy => .single hy) hf hnames
      hargs⟩
    exact ⟨.single hx, isReadable ((everywhere_iff.1 he).2 x hx)⟩

/-! ### Nested products, and sums of an index and a power -/

def width : Expr := var ⟨0, { name? := some "width" }⟩

def height : Expr := var ⟨1, { name? := some "height" }⟩

/-- The product from the left. -/
def area : Expr := binary none .mul (binary none .mul width height) width

/-- The product from the right. -/
def area' : Expr := binary none .mul width (binary none .mul height width)

def corner : Expr := unary none (.index (.element 0 0)) (unary none .transpose area.neg)

def cube : Expr := unary none (.power 3) height

/-- The sum from the left. -/
def girth : Expr := binary none .add (binary none .add width corner) cube

/-- The sum from the right. -/
def girth' : Expr := binary none .add width (binary none .add corner cube)

theorem built_width : width.Built := .var _

theorem built_height : height.Built := .var _

theorem built_area : area.Built := by
  have hinner : (binary none .mul width height).Built := .binary .mul built_width built_height rfl
  exact .binary .mul hinner built_width rfl

theorem built_corner : corner.Built := by
  have hneg : area.neg.Built := @Built.unary .neg _ _ built_area rfl
  have htranspose : area.neg.transpose.Built := @Built.unary .transpose _ _ hneg rfl
  exact @Built.apply (.unary (.index (.element 0 0))) _ _
    (List.forall_mem_singleton.2 htranspose) rfl

theorem built_cube : cube.Built :=
  @Built.apply (.unary (.power 3)) _ _ (List.forall_mem_singleton.2 built_height) rfl

/-- The brackets of sums are not printed, those of products are. -/
theorem nesting_printed : girth.text = girth'.text ∧ area.text ≠ area'.text := by
  have hleft : (binary none .add width corner).Built := .binary .add built_width built_corner rfl
  have hright : (binary none .add corner cube).Built := .binary .add built_corner built_cube rfl
  have hfactor : (binary none .mul height width).Built :=
    .binary .mul built_height built_width rfl
  have hsums := text_eq_iff_regrouped (e := girth) (f := girth')
    (.binary .add hleft built_cube rfl) (.binary .add built_width hright rfl)
    (by decide) (by decide) (by decide)
  have hproducts := text_eq_iff_regrouped (e := area) (f := area') built_area
    (.binary .mul built_width hfactor rfl) (by decide) (by decide) (by decide)
  refine ⟨hsums.1.2 (.assoc _ _ _ _ _ _ _), fun h => ?_⟩
  obtain ⟨-, hargs⟩ := hproducts.2 h (by simp [area, atom?])
  cases hargs with
  | cons hleft _ => exact absurd hleft.pieces_eq.2 (by decide)

end Expr

end DisciplinedConvex
