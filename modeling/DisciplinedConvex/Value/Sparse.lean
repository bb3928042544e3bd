import DisciplinedConvex.Shape
import DisciplinedConvex.Word
import DisciplinedConvex.Decimal.Text

/-! # Sparse matrices

A matrix given by its stored entries, column by column and in each column by increasing row; a
position that is not stored holds zero.

* `SparseMatrix.ofTriplets?` collects entries in any order. A position that comes up again adds to
  what is there, and a stored zero stays stored.
* `SparseMatrix.all` asks about the stored entries, and about zero if fewer are stored than the
  shape has positions. The number of positions is counted in a word, and there is no answer if it
  does not fit.
-/

namespace DisciplinedConvex
set_option autoImplicit false

/-- A stored entry. -/
structure Triplet where
  row : UInt64
  col : UInt64
  value : Float

namespace Triplet

/-- In an earlier column, or in the same column and an earlier row. -/
def Before (a b : Triplet) : Prop := a.col < b.col ∨ (a.col = b.col ∧ a.row < b.row)

instance (a b : Triplet) : Decidable (a.Before b) :=
  inferInstanceAs (Decidable (_ ∨ _))

/-- Puts an entry in its place, on top of one at the same position. -/
def insert (t : Triplet) : List Triplet → List Triplet
  | [] => [t]
  | s :: rest =>
    if t.Before s then t :: s :: rest
    else if s.Before t then s :: insert t rest
    else { s with value := s.value + t.value } :: rest

theorem Before.trans {a b c : Triplet} (h : a.Before b) (k : b.Before c) : a.Before c := by
  simp only [Before, UInt64.lt_iff_toNat_lt, ← UInt64.toNat_inj] at *
  omega

theorem exists_of_mem_insert {t u : Triplet} {l : List Triplet} (h : u ∈ insert t l) :
    (u.row = t.row ∧ u.col = t.col) ∨ u ∈ l ∨ ∃ s ∈ l, u.row = s.row ∧ u.col = s.col := by
  induction l with
  | nil => simp_all [insert]
  | cons s rest ih =>
    rw [insert] at h
    split at h
    · rcases List.mem_cons.1 h with rfl | h
      · exact .inl ⟨rfl, rfl⟩
      · exact .inr (.inl h)
    · split at h
      · rcases List.mem_cons.1 h with rfl | h
        · exact .inr (.inl List.mem_cons_self)
        · rcases ih h with h | h | ⟨v, hv, h⟩
          · exact .inl h
          · exact .inr (.inl (List.mem_cons_of_mem _ h))
          · exact .inr (.inr ⟨v, List.mem_cons_of_mem _ hv, h⟩)
      · rcases List.mem_cons.1 h with rfl | h
        · exact .inr (.inr ⟨s, List.mem_cons_self, rfl, rfl⟩)
        · exact .inr (.inl (List.mem_cons_of_mem _ h))

/-- Positions decide the order. -/
theorem Before.congr_right {a b c : Triplet} (h : a.Before b) (hr : c.row = b.row)
    (hc : c.col = b.col) : a.Before c := by
  simpa [Before, hr, hc] using h

theorem pairwise_insert {t : Triplet} {l : List Triplet} (h : l.Pairwise Before) :
    (insert t l).Pairwise Before := by
  induction l with
  | nil => simp [insert]
  | cons s rest ih =>
    obtain ⟨hs, hrest⟩ := List.pairwise_cons.1 h
    rw [insert]
    split
    · rename_i hts
      refine List.pairwise_cons.2 ⟨fun u hu => ?_, h⟩
      rcases List.mem_cons.1 hu with rfl | hu
      · exact hts
      · exact hts.trans (hs u hu)
    · split
      · rename_i hst
        refine List.pairwise_cons.2 ⟨fun u hu => ?_, ih hrest⟩
        rcases exists_of_mem_insert hu with ⟨hr, hc⟩ | hu | ⟨v, hv, hr, hc⟩
        · exact hst.congr_right hr hc
        · exact hs u hu
        · exact (hs v hv).congr_right hr hc
      · exact List.pairwise_cons.2 ⟨hs, hrest⟩

end Triplet

structure SparseMatrix where
  rows : UInt64
  cols : UInt64
  /-- The stored entries, column by column. -/
  stored : List Triplet
  sorted : stored.Pairwise Triplet.Before
  inside : ∀ t ∈ stored, t.row < rows ∧ t.col < cols

namespace SparseMatrix

def empty (rows cols : UInt64) : SparseMatrix :=
  ⟨rows, cols, [], .nil, fun _ h => nomatch h⟩

def shape (m : SparseMatrix) : Shape := ⟨m.rows, m.cols⟩

/-- Adds an entry at a position inside the matrix. -/
def add (m : SparseMatrix) (t : Triplet) (h : t.row < m.rows ∧ t.col < m.cols) :
    SparseMatrix where
  rows := m.rows
  cols := m.cols
  stored := t.insert m.stored
  sorted := Triplet.pairwise_insert m.sorted
  inside u hu := by
    rcases Triplet.exists_of_mem_insert hu with ⟨hr, hc⟩ | hu | ⟨v, hv, hr, hc⟩
    · rw [hr, hc]; exact h
    · exact m.inside u hu
    · rw [hr, hc]; exact m.inside v hv

def add? (m : SparseMatrix) (t : Triplet) : Option SparseMatrix :=
  if h : t.row < m.rows ∧ t.col < m.cols then some (m.add t h) else none

/-- The matrix with the given entries, added up in the given order; absent if one lies outside. -/
def ofTriplets? (rows cols : UInt64) (triplets : List Triplet) : Option SparseMatrix :=
  triplets.foldlM add? (empty rows cols)

/-- The number of stored entries. -/
def storedCount (m : SparseMatrix) : Nat := m.stored.length

/-- The entry at a position. -/
def entry (m : SparseMatrix) (i j : Nat) : Float :=
  match m.stored.find? fun t => t.row.toNat == i && t.col.toNat == j with
  | some t => t.value
  | none => 0

def all (m : SparseMatrix) (p : Float → Bool) : Except Overflow Bool := do
  let positions ← Word.mul m.rows m.cols
  return m.stored.all (fun t => p t.value) && (!(m.storedCount < positions.toNat) || p 0)

def text (m : SparseMatrix) : String :=
  "sparse(" ++ toString m.rows ++ "x" ++ toString m.cols ++ ", nnz=" ++
    toString m.storedCount ++ ")"

/-- Equal shapes and positions, and values that compare equal. -/
def beq (a b : SparseMatrix) : Bool :=
  a.rows == b.rows && a.cols == b.cols &&
    a.stored.map (fun t => (t.row, t.col, t.value)) ==
      b.stored.map (fun t => (t.row, t.col, t.value))

instance : BEq SparseMatrix := ⟨beq⟩

end SparseMatrix

end DisciplinedConvex
