import Mathlib.Data.List.Basic

/-! # Texts cut at their brackets

A text with brackets is a list of characters and of groups in brackets, which are such lists again.

* `Piece.charsOf` writes the pieces out, and `Piece.Proper.eq_of_charsOf` is that the brackets can
  be matched in one way only.
* A character that stands in no piece but inside of groups divides nothing: a list of parts can be
  read off from what is between the dividing characters (`Piece.eq_of_intercalate`).
-/

namespace DisciplinedConvex
set_option autoImplicit false

inductive Bracket where
  | round
  | square
  deriving DecidableEq

namespace Bracket

def opening : Bracket → Char
  | round => '('
  | square => '['

def closing : Bracket → Char
  | round => ')'
  | square => ']'

def marks : List Char := ['(', ')', '[', ']']

theorem opening_inj {a b : Bracket} (h : a.opening = b.opening) : a = b := by
  cases a <;> cases b <;> first | rfl | exact absurd h (by decide)

end Bracket

/-- A character, or a group in brackets. -/
inductive Piece where
  | char (c : Char)
  | group (b : Bracket) (inside : List Piece)

namespace Piece

mutual

def chars : Piece → List Char
  | char c => [c]
  | group b inside => b.opening :: (charsOf inside ++ [b.closing])

/-- The characters of a list of pieces. -/
def charsOf : List Piece → List Char
  | [] => []
  | p :: ps => p.chars ++ charsOf ps

end

@[simp] theorem charsOf_nil : charsOf [] = [] := rfl

@[simp] theorem charsOf_char (c : Char) (ps : List Piece) :
    charsOf (char c :: ps) = c :: charsOf ps := rfl

@[simp] theorem charsOf_group (b : Bracket) (inside ps : List Piece) :
    charsOf (group b inside :: ps) = b.opening :: (charsOf inside ++ b.closing :: charsOf ps) := by
  simp [charsOf, chars]

@[simp] theorem charsOf_append (ps qs : List Piece) :
    charsOf (ps ++ qs) = charsOf ps ++ charsOf qs := by
  induction ps with
  | nil => rfl
  | cons p ps ih => simp [charsOf, ih]

/-- A text without groups. -/
def plain (s : List Char) : List Piece := s.map char

@[simp] theorem charsOf_plain (s : List Char) : charsOf (plain s) = s := by
  induction s with
  | nil => rfl
  | cons c s ih => simpa [plain] using ih

/-! ## Brackets -/

/-- No bracket is among the characters, inside of groups neither. -/
inductive Proper : List Piece → Prop where
  | nil : Proper []
  | char {c : Char} {ps : List Piece} (hc : c ∉ Bracket.marks) (h : Proper ps) :
    Proper (char c :: ps)
  | group {b : Bracket} {inside ps : List Piece} (hinside : Proper inside) (h : Proper ps) :
    Proper (group b inside :: ps)

theorem Proper.append {ps qs : List Piece} (hp : Proper ps) (hq : Proper qs) :
    Proper (ps ++ qs) := by
  induction hp with
  | nil => exact hq
  | char hc _ ih => exact .char hc ih
  | group hinside _ _ ih => exact .group hinside ih

theorem Proper.plain {s : List Char} (h : ∀ c ∈ s, c ∉ Bracket.marks) : Proper (plain s) := by
  induction s with
  | nil => exact .nil
  | cons c s ih =>
    exact .char (h c List.mem_cons_self) (ih fun d hd => h d (List.mem_cons_of_mem _ hd))

theorem Proper.singleton {b : Bracket} {inside : List Piece} (h : Proper inside) :
    Proper [Piece.group b inside] :=
  .group h .nil

/-- What may follow the pieces inside a group, or at the end. -/
def Closes (s : List Char) : Prop := s = [] ∨ ∃ b rest, s = Bracket.closing b :: rest

theorem Closes.nil : Closes [] := .inl rfl

theorem Closes.cons (b : Bracket) (rest : List Char) : Closes (b.closing :: rest) :=
  .inr ⟨b, rest, rfl⟩

theorem not_closes_char {c : Char} {s : List Char} (hc : c ∉ Bracket.marks) : ¬Closes (c :: s) := by
  rintro (h | ⟨b, rest, h⟩)
  · cases h
  · cases h
    cases b <;> exact hc (by decide)

theorem not_closes_opening {b : Bracket} {s : List Char} : ¬Closes (b.opening :: s) := by
  rintro (h | ⟨b', rest, h⟩)
  · cases h
  · have hb := (List.cons.inj h).1
    cases b <;> cases b' <;> exact absurd hb (by decide)

/-- The pieces end where the first bracket without a partner stands. -/
theorem Proper.eq_of_charsOf {ps : List Piece} (hp : Proper ps) {qs : List Piece} (hq : Proper qs)
    {s t : List Char} (hs : Closes s) (ht : Closes t) (h : charsOf ps ++ s = charsOf qs ++ t) :
    ps = qs ∧ s = t := by
  induction hp generalizing qs s t with
  | nil =>
    rw [charsOf_nil, List.nil_append] at h
    subst h
    cases hq with
    | nil => exact ⟨rfl, rfl⟩
    | char hc _ => exact absurd hs (not_closes_char hc)
    | group _ _ => exact absurd hs not_closes_opening
  | @char c ps hc _ ih =>
    cases hq with
    | nil =>
      rw [charsOf_nil, List.nil_append] at h
      exact absurd (h ▸ ht) (not_closes_char hc)
    | char _ hq =>
      obtain ⟨hhead, htail⟩ := List.cons.inj h
      obtain ⟨rfl, hst⟩ := ih hq hs ht htail
      exact ⟨by rw [hhead], hst⟩
    | @group b =>
      obtain ⟨hhead, -⟩ := List.cons.inj h
      cases b <;> exact absurd (by rw [hhead]; decide) hc
  | @group b inside ps _ _ ihinside ih =>
    cases hq with
    | nil =>
      rw [charsOf_nil, List.nil_append] at h
      exact absurd (h ▸ ht) not_closes_opening
    | char hc _ =>
      obtain ⟨hhead, -⟩ := List.cons.inj h
      cases b <;> exact absurd (by rw [← hhead]; decide) hc
    | @group b' _ _ hinside' hq =>
      simp only [charsOf_group, List.cons_append, List.append_assoc] at h
      obtain ⟨hhead, htail⟩ := List.cons.inj h
      obtain ⟨rfl, hrest⟩ := ihinside hinside' (.cons _ _) (.cons _ _) htail
      obtain ⟨rfl, hst⟩ := ih hq hs ht (List.cons.inj hrest).2
      exact ⟨by rw [Bracket.opening_inj hhead], hst⟩

theorem Proper.charsOf_inj {ps qs : List Piece} (hp : Proper ps) (hq : Proper qs) :
    charsOf ps = charsOf qs ↔ ps = qs := by
  refine ⟨fun h => ?_, congrArg charsOf⟩
  rw [← List.append_nil (charsOf ps), ← List.append_nil (charsOf qs)] at h
  exact (hp.eq_of_charsOf hq .nil .nil h).1

/-! ## Dividing pieces -/

section Dividing

variable {α : Type} {d : α} {l r : List α}

/-- Before the first dividing member. -/
theorem append_cons_inj_of_notMem_left {x y v w : List α} (hx : d ∉ x) (hy : d ∉ y)
    (h : x ++ d :: v = y ++ d :: w) : x = y ∧ v = w := by
  rcases List.append_eq_append_iff.1 h with ⟨u, rfl, hu⟩ | ⟨u, rfl, hu⟩
  · cases u with
    | nil => exact ⟨(List.append_nil x).symm, (List.cons.inj hu).2⟩
    | cons a u => exact absurd (by simp [(List.cons.inj hu).1]) hy
  · cases u with
    | nil => exact ⟨List.append_nil y, (List.cons.inj hu).2.symm⟩
    | cons a u => exact absurd (by simp [(List.cons.inj hu).1]) hx

/-- After the last dividing member. -/
theorem append_cons_inj_of_notMem_right {x y v w : List α} (hv : d ∉ v) (hw : d ∉ w)
    (h : x ++ d :: v = y ++ d :: w) : x = y ∧ v = w := by
  have hreverse := congrArg List.reverse h
  simp only [List.reverse_append, List.reverse_cons, List.append_assoc, List.singleton_append]
    at hreverse
  obtain ⟨hvw, hxy⟩ := append_cons_inj_of_notMem_left (mt List.mem_reverse.1 hv)
    (mt List.mem_reverse.1 hw) hreverse
  exact ⟨List.reverse_inj.1 hxy, List.reverse_inj.1 hvw⟩

theorem intercalate_append {sep : List α} {xs ys : List (List α)} (hx : xs ≠ []) (hy : ys ≠ []) :
    sep.intercalate (xs ++ ys) = sep.intercalate xs ++ sep ++ sep.intercalate ys := by
  obtain ⟨y, ys, rfl⟩ := List.exists_cons_of_ne_nil hy
  induction xs with
  | nil => exact absurd rfl hx
  | cons x xs ih =>
    cases xs with
    | nil => rw [List.singleton_append, List.intercalate_cons_cons, List.intercalate_singleton]
    | cons x' xs =>
      have h := ih (List.cons_ne_nil _ _)
      rw [List.cons_append] at h
      simp only [List.cons_append, List.intercalate_cons_cons, h, List.append_assoc]

/-- Parts without the dividing member are what stands between. -/
theorem eq_of_intercalate (hl : d ∉ l) {xs ys : List (List α)} (hxs : ∀ x ∈ xs, d ∉ x)
    (hys : ∀ y ∈ ys, d ∉ y) (hxne : xs ≠ []) (hyne : ys ≠ [])
    (h : (l ++ d :: r).intercalate xs = (l ++ d :: r).intercalate ys) : xs = ys := by
  induction xs generalizing ys with
  | nil => exact absurd rfl hxne
  | cons x xs ih =>
    obtain ⟨y, ys, rfl⟩ := List.exists_cons_of_ne_nil hyne
    rw [List.forall_mem_cons] at hxs hys
    match xs, ys with
    | [], [] => simpa using h
    | [], y' :: ys =>
      rw [List.intercalate_singleton, List.intercalate_cons_cons] at h
      exact absurd (by rw [h]; simp) hxs.1
    | x' :: xs, [] =>
      rw [List.intercalate_singleton, List.intercalate_cons_cons] at h
      exact absurd (by rw [← h]; simp) hys.1
    | x' :: xs, y' :: ys =>
      have hnot : ∀ z : List α, d ∉ z → d ∉ z ++ l := fun z hz hmem =>
        (List.mem_append.1 hmem).elim hz hl
      rw [List.intercalate_cons_cons, List.intercalate_cons_cons] at h
      simp only [List.append_assoc, List.cons_append] at h
      rw [← List.append_assoc x, ← List.append_assoc y] at h
      obtain ⟨hxy, hrest⟩ := append_cons_inj_of_notMem_left (hnot x hxs.1) (hnot y hys.1) h
      have htail := ih hxs.2 hys.2 (List.cons_ne_nil _ _) (List.cons_ne_nil _ _)
        (List.append_cancel_left hrest)
      rw [List.append_cancel_right hxy, htail]

end Dividing

end Piece

end DisciplinedConvex
