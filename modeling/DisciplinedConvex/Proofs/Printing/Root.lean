import DisciplinedConvex.Proofs.Printing.Legible

/-! # The root of a printed expression

* How tightly the root binds can be read off the pieces (`Expr.binding_eq_of_pieces`): every
  operator shows a character outside of groups that nothing shows which binds more tightly
  (`Expr.binding_le_of_mem`), and a call and an index end in a group.
* Hence the pieces determine the atom at the root and the pieces of its arguments, unless the root
  is a sum (`Expr.root_eq_of_pieces`).
-/

namespace DisciplinedConvex
set_option autoImplicit false

open Piece

/-! ## Characters and how tightly they bind -/

/-- The tightest binding of an expression that shows the character outside of groups. -/
def Binding.tightest (c : Char) : Nat :=
  if Text.isNameChar c then leaf
  else if c = '.' then postfixed
  else if c = '-' then negation
  else if c = ' ' ∨ c = '*' ∨ c = '@' then product
  else if c = '+' then sum
  else 0

theorem Binding.tightest_of_isNameChar {c : Char} (h : Text.isNameChar c = true) :
    tightest c = leaf := by
  rw [tightest, if_pos h]

/-- A binding that the characters allow. -/
def Binding.Shows (binding : Nat) (s : List Char) : Prop :=
  s.all (fun c => binding ≤ tightest c) = true

theorem Binding.Shows.le {binding : Nat} {s : List Char} (h : Shows binding s) {c : Char}
    (hc : c ∈ s) : binding ≤ tightest c :=
  of_decide_eq_true (List.all_eq_true.1 h c hc)

namespace Binary

variable {op : Binary}

theorem shows_product (hop : op = mul ∨ op = matmul) :
    Binding.Shows Binding.product [' ', op.mark, ' '] := by
  rcases hop with rfl | rfl <;> rfl

end Binary

namespace Piece

variable {c : Char} {ps : List Piece} {binding least : Nat}

theorem mem_operand (h : char c ∈ operand ps binding least) : least ≤ binding ∧ char c ∈ ps := by
  unfold operand at h
  split at h
  case isTrue => simp at h
  case isFalse hle => exact ⟨Nat.le_of_not_lt hle, h⟩

theorem mem_negated (h : char c ∈ negated ps binding) :
    Binding.negation ≤ binding ∧ char c ∈ ps := by
  unfold negated at h
  split at h
  case isTrue => simp at h
  case isFalse hle =>
    simp only [Bool.or_eq_true, decide_eq_true_eq, not_or, Nat.not_lt] at hle
    exact ⟨hle.1, h⟩

theorem mem_call {name : String} {parts : List (List Piece)} (h : char c ∈ call name parts) :
    c ∈ name.toList := by
  rw [call, List.mem_append] at h
  exact h.elim char_mem_plain.1 fun hgroup => by simp at hgroup

end Piece

namespace Expr

theorem sum_le_binding (e : Expr) : Binding.sum ≤ e.binding := by
  cases e with
  | unary label op x => cases op <;> exact Nat.le_of_ble_eq_true rfl
  | binary label op x y => cases op <;> exact Nat.le_of_ble_eq_true rfl
  | _ => exact Nat.le_of_ble_eq_true rfl

theorem binding_le_leaf (e : Expr) : e.binding ≤ Binding.leaf := by
  cases e with
  | unary label op x => cases op <;> exact Nat.le_of_ble_eq_true rfl
  | binary label op x y => cases op <;> exact Nat.le_of_ble_eq_true rfl
  | _ => exact Nat.le_of_ble_eq_true rfl

/-- A character outside of groups bounds the binding of the root. -/
theorem binding_le_of_mem {e : Expr} (he : e.Everywhere IsLegible) {c : Char}
    (hc : char c ∈ e.pieces) : e.binding ≤ Binding.tightest c := by
  induction e using args_induction with
  | step e ih =>
    have hplace : ∀ x ∈ e.args, ∀ least, least ≤ x.binding ∧ char c ∈ x.pieces →
        least ≤ Binding.tightest c := fun x hx least hshown =>
      hshown.1.trans (ih x hx ((everywhere_iff.1 he).2 x hx) hshown.2)
    obtain ⟨n, hn, hform⟩ := exists_form he
    rw [hn]
    cases hform with
    | leaf v hname =>
      rw [Binding.tightest_of_isNameChar (Text.isNameChar_of_mem hname (char_mem_plain.1 hc))]
    | sum label x y =>
      simp only [pieces, Binary.pieces, List.mem_append, char_mem_plain] at hc
      have hmarks : Binding.Shows Binding.sum [' ', '+', ' '] := rfl
      rcases hc with (hx | hmark) | hy
      · exact hplace x (by simp [args]) _ (mem_operand hx)
      · exact hmarks.le hmark
      · exact hplace y (by simp [args]) _ (mem_operand hy)
    | product label op x y hop =>
      rw [pieces, Binary.pieces_product hop] at hc
      simp only [List.mem_append, char_mem_plain] at hc
      rcases hc with (hx | hmark) | hy
      · exact hplace x (by simp [args]) _ (mem_operand hx)
      · exact (Binary.shows_product hop).le hmark
      · exact (Nat.le_succ _).trans (hplace y (by simp [args]) _ (mem_operand hy))
    | negation label x =>
      simp only [pieces, Unary.pieces, List.mem_cons, Piece.char.injEq] at hc
      rcases hc with rfl | hx
      · exact Nat.le_of_ble_eq_true rfl
      · exact hplace x (by simp [args]) _ (mem_negated hx)
    | transposed label x =>
      simp only [pieces, Unary.pieces, List.mem_append, char_mem_plain] at hc
      have hmarks : Binding.Shows Binding.postfixed ['.', 'T'] := rfl
      rcases hc with hx | hmark
      · exact (by decide : Binding.postfixed ≤ Binding.call).trans
          (hplace x (by simp [args]) _ (mem_operand hx))
      · exact hmarks.le hmark
    | indexed label selection x hs =>
      simp only [pieces, Unary.pieces, Selection.pieces, List.mem_append, List.mem_singleton,
        reduceCtorEq, or_false] at hc
      exact (by decide : Binding.postfixed ≤ Binding.call).trans
        (hplace x (by simp [args]) _ (mem_operand hc))
    | call _ a hatom hchecked hpieces =>
      rw [hpieces] at hc
      rw [Binding.tightest_of_isNameChar (Text.isNameChar_of_mem a.isIdentifier_name (mem_call hc))]
      exact Nat.le_of_ble_eq_true rfl

end Expr

/-! ## The binding of the root -/

/-- The bracket of a group in the last place. -/
def Piece.lastBracket? (ps : List Piece) : Option Bracket :=
  match ps.getLast? with
  | some (group b _) => some b
  | _ => none

theorem Piece.lastBracket?_concat (ps : List Piece) (b : Bracket) (inside : List Piece) :
    lastBracket? (ps ++ [group b inside]) = some b := by
  rw [lastBracket?, List.getLast?_concat]

theorem Piece.lastBracket?_plain (s : List Char) : lastBracket? (plain s) = none := by
  rw [lastBracket?, plain, List.getLast?_map]
  cases s.getLast? <;> rfl

theorem Expr.lastBracket?_indexed (label : Option Nat) (s : Selection) (x : Expr) :
    lastBracket? (unary label (.index s) x).pieces = some .square :=
  lastBracket?_concat _ _ _

theorem Expr.lastBracket?_transposed (label : Option Nat) (x : Expr) :
    lastBracket? (unary label .transpose x).pieces = none := by
  rw [pieces, Unary.pieces, lastBracket?, List.getLast?_append]
  rfl

/-- The two operators behind their operand differ in their last piece. -/
theorem Expr.transposed_ne_indexed (label label' : Option Nat) (s : Selection) (x y : Expr) :
    (unary label .transpose x).pieces ≠ (unary label' (.index s) y).pieces := by
  intro h
  have hlast := congrArg lastBracket? h
  rw [lastBracket?_transposed, lastBracket?_indexed] at hlast
  cases hlast

/-- The tightest binding of an expression that ends in a group. -/
def Bracket.tightest : Bracket → Nat
  | round => Binding.call
  | square => Binding.postfixed

namespace Expr

variable {e f : Expr}

theorem Form.binding_le_of_lastBracket {n : Nat} (hf : f.Form n) {b : Bracket}
    (hb : lastBracket? f.pieces = some b) : n ≤ b.tightest := by
  cases hf with
  | leaf v hname =>
    rw [pieces, lastBracket?_plain] at hb
    cases hb
  | call _ a hatom hchecked hpieces =>
    rw [hpieces, Piece.call, lastBracket?_concat, Option.some.injEq] at hb
    rw [← hb]
    exact le_refl _
  | _ => cases b <;> decide

theorem binding_le_of_pieces (he : e.Everywhere IsLegible) (hf : f.Everywhere IsLegible)
    (h : e.pieces = f.pieces) : f.binding ≤ e.binding := by
  have hshown : ∀ c, char c ∈ e.pieces → f.binding ≤ Binding.tightest c := fun c hc =>
    binding_le_of_mem hf (h ▸ hc)
  obtain ⟨n, hn, hform⟩ := exists_form he
  rw [hn]
  cases hform with
  | leaf v hname => exact f.binding_le_leaf
  | sum label x y => exact hshown '+' (by simp [pieces, Binary.pieces, plain])
  | product label op x y hop =>
    exact hshown ' ' (by simp [pieces, Binary.pieces_product hop, plain])
  | negation label x => exact hshown '-' (by simp [pieces, Unary.pieces])
  | transposed label x => exact hshown '.' (by simp [pieces, Unary.pieces, plain])
  | indexed label selection x hs =>
    have hlast : lastBracket? f.pieces = some .square := h ▸ lastBracket?_indexed label selection x
    exact hf.self.form.binding_le_of_lastBracket hlast
  | call _ a hatom hchecked hpieces =>
    have hlast : lastBracket? f.pieces = some .round := by
      rw [← h, hpieces, Piece.call, lastBracket?_concat]
    exact hf.self.form.binding_le_of_lastBracket hlast

theorem binding_eq_of_pieces (he : e.Everywhere IsLegible) (hf : f.Everywhere IsLegible)
    (h : e.pieces = f.pieces) : e.binding = f.binding :=
  Nat.le_antisymm (binding_le_of_pieces hf he h.symm) (binding_le_of_pieces he hf h)

/-! ## Operands -/

theorem pieces_ne_nil (he : e.Everywhere IsLegible) : e.pieces ≠ [] := by
  obtain ⟨n, hn, hform⟩ := exists_form he
  cases hform with
  | leaf v hname =>
    intro h
    exact Text.toList_ne_nil hname (List.map_eq_nil_iff.1 h)
  | sum label x y => simp [pieces, Binary.pieces, plain]
  | product label op x y hop => simp [pieces, Binary.pieces_product hop, plain]
  | negation label x => simp [pieces, Unary.pieces]
  | transposed label x => simp [pieces, Unary.pieces, plain]
  | indexed label selection x hs => simp [pieces, Unary.pieces, Selection.pieces]
  | call _ a hatom hchecked hpieces =>
    rw [hpieces]
    simp [Piece.call]

theorem operand_ne_nil (he : e.Everywhere IsLegible) (least : Nat) :
    operand e.pieces e.binding least ≠ [] := by
  unfold operand
  split
  · exact List.cons_ne_nil _ _
  · exact pieces_ne_nil he

/-- Only an operand is a group and nothing else. -/
theorem pieces_ne_group (he : e.Everywhere IsLegible) (b : Bracket) (inside : List Piece) :
    e.pieces ≠ [group b inside] := by
  intro h
  have hnot : ∀ c, char c ∉ e.pieces := by simp [h]
  obtain ⟨n, hn, hform⟩ := exists_form he
  cases hform with
  | leaf v hname =>
    obtain ⟨c, hc⟩ := List.exists_mem_of_ne_nil _ (Text.toList_ne_nil hname)
    exact hnot c (char_mem_plain.2 hc)
  | sum label x y => exact hnot '+' (by simp [pieces, Binary.pieces, plain])
  | product label op x y hop => exact hnot ' ' (by simp [pieces, Binary.pieces_product hop, plain])
  | negation label x => exact hnot '-' (by simp [pieces, Unary.pieces])
  | transposed label x => exact hnot '.' (by simp [pieces, Unary.pieces, plain])
  | indexed label selection x hs =>
    have hx := operand_ne_nil (everywhere_unary.1 he).2 Binding.call
    rcases List.append_eq_singleton_iff.1 h with ⟨hnil, -⟩ | ⟨-, hnil⟩
    · exact hx hnil
    · cases hnil
  | call _ a hatom hchecked hpieces =>
    obtain ⟨c, hc⟩ := List.exists_mem_of_ne_nil _ (Text.toList_ne_nil a.isIdentifier_name)
    rw [hpieces] at hnot
    exact hnot c (List.mem_append_left _ (char_mem_plain.2 hc))

/-- Parentheses around an operand are seen. -/
theorem pieces_eq_of_operand (he : e.Everywhere IsLegible) (hf : f.Everywhere IsLegible)
    {p q : Prop} [Decidable p] [Decidable q]
    (h : (if p then [group .round e.pieces] else e.pieces) =
      if q then [group .round f.pieces] else f.pieces) : e.pieces = f.pieces := by
  split at h
  · split at h
    · exact (Piece.group.inj (List.cons.inj h).1).2
    · exact absurd h.symm (pieces_ne_group hf _ _)
  · split at h
    · exact absurd h (pieces_ne_group he _ _)
    · exact h

/-! ## The root -/

/-- The same atom at the root, and arguments that print the same. -/
def SameRoot (e f : Expr) : Prop :=
  (∃ a, e.atom? = some a ∧ f.atom? = some a) ∧ e.args.map pieces = f.args.map pieces

section Forms

variable {label label' : Option Nat} {x y x' y' : Expr}

theorem sameRoot_of_product {op op' : Binary} (hop : op = .mul ∨ op = .matmul)
    (hop' : op' = .mul ∨ op' = .matmul) (he : (binary label op x y).Everywhere IsLegible)
    (hf : (binary label' op' x' y').Everywhere IsLegible)
    (h : (binary label op x y).pieces = (binary label' op' x' y').pieces) :
    SameRoot (binary label op x y) (binary label' op' x' y') := by
  obtain ⟨-, hx, hy⟩ := everywhere_binary.1 he
  obtain ⟨-, hx', hy'⟩ := everywhere_binary.1 hf
  have hblank : ∀ {z : Expr}, z.Everywhere IsLegible →
      char ' ' ∉ operand z.pieces z.binding (Binding.product + 1) := fun hz hm => by
    have hbound := (mem_operand hm).1.trans (binding_le_of_mem hz (mem_operand hm).2)
    exact absurd hbound (by decide)
  have hsplit : ∀ {ps qs : List Piece} {c : Char}, ps ++ plain [' ', c, ' '] ++ qs =
      (ps ++ [char ' ', char c]) ++ char ' ' :: qs := by simp [plain]
  rw [pieces, pieces, Binary.pieces_product hop, Binary.pieces_product hop', hsplit, hsplit] at h
  -- the last blank stands before the right operand
  obtain ⟨hleft, hright⟩ := append_cons_inj_of_notMem_right (hblank hy) (hblank hy') h
  obtain ⟨hleft, hmark⟩ := List.append_inj' hleft rfl
  have hop_eq : op = op' := by
    rcases hop with rfl | rfl <;> rcases hop' with rfl | rfl <;> first | rfl | cases hmark
  refine ⟨⟨_, rfl, by rw [atom?, hop_eq]⟩, ?_⟩
  rw [args, args, List.map_cons, List.map_singleton, List.map_cons, List.map_singleton,
    pieces_eq_of_operand hx hx' hleft, pieces_eq_of_operand hy hy' hright]

theorem sameRoot_of_negation (he : (unary label .neg x).Everywhere IsLegible)
    (hf : (unary label' .neg x').Everywhere IsLegible)
    (h : (unary label .neg x).pieces = (unary label' .neg x').pieces) :
    SameRoot (unary label .neg x) (unary label' .neg x') := by
  have hx := pieces_eq_of_operand (everywhere_unary.1 he).2 (everywhere_unary.1 hf).2
    (List.cons.inj h).2
  exact ⟨⟨_, rfl, rfl⟩, congrArg ([·]) hx⟩

theorem sameRoot_of_transposed (he : (unary label .transpose x).Everywhere IsLegible)
    (hf : (unary label' .transpose x').Everywhere IsLegible)
    (h : (unary label .transpose x).pieces = (unary label' .transpose x').pieces) :
    SameRoot (unary label .transpose x) (unary label' .transpose x') := by
  have hx := pieces_eq_of_operand (everywhere_unary.1 he).2 (everywhere_unary.1 hf).2
    (List.append_cancel_right h)
  exact ⟨⟨_, rfl, rfl⟩, congrArg ([·]) hx⟩

theorem sameRoot_of_indexed {s s' : Selection}
    (he : (unary label (.index s) x).Everywhere IsLegible)
    (hf : (unary label' (.index s') x').Everywhere IsLegible)
    (h : (unary label (.index s) x).pieces = (unary label' (.index s') x').pieces) :
    SameRoot (unary label (.index s) x) (unary label' (.index s') x') := by
  obtain ⟨hleft, hright⟩ := List.append_inj' h rfl
  have hx := pieces_eq_of_operand (everywhere_unary.1 he).2 (everywhere_unary.1 hf).2 hleft
  have hs : s = s' := Selection.pieces_inj he.self hf.self hright
  exact ⟨⟨_, rfl, by rw [atom?, hs]⟩, congrArg ([·]) hx⟩

end Forms

theorem sameRoot_of_call {a b : Atom} (he : e.Everywhere IsLegible) (hf : f.Everywhere IsLegible)
    (hatom : e.atom? = some a) (hatom' : f.atom? = some b) (ha : a.IsChecked) (hb : b.IsChecked)
    (h : Piece.call a.name (e.args.map pieces ++ a.params) =
      Piece.call b.name (f.args.map pieces ++ b.params)) : SameRoot e f := by
  obtain ⟨hname, hgroup⟩ := List.append_inj' h rfl
  have hname : a.name = b.name := String.toList_inj.1 (plain_inj hname)
  have hinside := (Piece.group.inj (List.cons.inj hgroup).1).2
  have hcomma : ∀ {g : Expr} {d : Atom}, g.Everywhere IsLegible → d.IsChecked →
      ∀ p ∈ g.args.map pieces ++ d.params, char ',' ∉ p := by
    intro g d hg hd p hp hm
    rcases List.mem_append.1 hp with hp | hp
    · obtain ⟨x, hx, rfl⟩ := List.mem_map.1 hp
      have hbound := binding_le_of_mem ((everywhere_iff.1 hg).2 x hx) hm
      exact absurd (x.sum_le_binding.trans hbound) (by decide)
    · exact Atom.comma_notMem_params hd hp hm
  have hne : ∀ {g : Expr} {d : Atom}, g.atom? = some d → g.args.map pieces ++ d.params ≠ [] := by
    intro g d hg hnil
    cases g with
    | var v => cases hg
    | const id v => cases hg
    | _ => cases hnil
  have hparts := eq_of_intercalate (l := []) List.not_mem_nil (hcomma he ha) (hcomma hf hb)
    (hne hatom) (hne hatom') hinside
  have hlength : a.params.length = b.params.length := by
    rw [Atom.length_params, Atom.length_params, hname]
  obtain ⟨hargs, hparams⟩ := List.append_inj' hparts hlength
  exact ⟨⟨a, hatom, by rw [hatom', Atom.eq_of_printed ha hb hname hparams]⟩, hargs⟩

/-- Only a sum can be printed as a tree with another root is. -/
theorem root_eq_of_pieces (he : e.Everywhere IsLegible) (hf : f.Everywhere IsLegible)
    (h : e.pieces = f.pieces) (hsum : e.binding ≠ Binding.sum) :
    (∃ v w, e = var v ∧ f = var w ∧ v.name = w.name) ∨ e.SameRoot f := by
  obtain ⟨n, hn, hform⟩ := exists_form he
  have hform' : f.Form n := hn ▸ binding_eq_of_pieces he hf h ▸ hf.self.form
  cases hform with
  | leaf v hname =>
    cases hform' with
    | leaf w hname' =>
      exact .inl ⟨v, w, rfl, rfl, String.toList_inj.1 (plain_inj h)⟩
  | sum label x y => exact absurd rfl hsum
  | product label op x y hop =>
    cases hform' with
    | product label' op' x' y' hop' => exact .inr (sameRoot_of_product hop hop' he hf h)
  | negation label x =>
    cases hform' with
    | negation label' x' => exact .inr (sameRoot_of_negation he hf h)
  | transposed label x =>
    cases hform' with
    | transposed label' x' => exact .inr (sameRoot_of_transposed he hf h)
    | indexed label' s' x' hs' =>
      exact absurd h (transposed_ne_indexed label label' s' x x')
  | indexed label s x hs =>
    cases hform' with
    | transposed label' x' =>
      exact absurd h.symm (transposed_ne_indexed label' label s x' x)
    | indexed label' s' x' hs' => exact .inr (sameRoot_of_indexed he hf h)
  | call _ a hatom hchecked hpieces =>
    cases hform' with
    | call _ b hatom' hchecked' hpieces' =>
      exact .inr (sameRoot_of_call he hf hatom hatom' hchecked hchecked' (hpieces ▸ hpieces' ▸ h))

end Expr

end DisciplinedConvex
