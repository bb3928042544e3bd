import Mathlib.Data.Finset.Card
import Mathlib.Data.Finset.Prod
import Mathlib.Data.List.Nodup
import DisciplinedConvex.Value.Basic

/-! # Positions of matrices

A sparse matrix holds zero at the positions that are not stored. Whether there are any is decided by
a comparison with the number of positions, which is counted in a word.

* `DenseMatrix.all_iff` and `SparseMatrix.forall_entry_iff` say what is true of every entry in terms
  of what is stored.
* `SparseMatrix.toDense` stores every entry, and `Sign.ofEntries` is the sign that entries have.
* A value answers every question about its entries, or none (`Value.answers_or_overflows`).
* `SparseMatrix.agrees_iff` says that sparse storage answers as the entries do, as long as a word
  can count the positions; `SparseMatrix.tall_overflows` is what happens otherwise.
-/

namespace DisciplinedConvex
set_option autoImplicit false

/-! ## Dense matrices -/

namespace DenseMatrix

variable {m : DenseMatrix} {p : Float → Bool}

theorem index_lt {i j : ℕ} (hi : i < m.rows.toNat) (hj : j < m.cols.toNat) :
    i * m.cols.toNat + j < m.entries.size := by
  rw [m.size_entries]
  have hstep : (i + 1) * m.cols.toNat ≤ m.rows.toNat * m.cols.toNat := Nat.mul_le_mul_right _ hi
  rw [Nat.succ_mul] at hstep
  omega

theorem all_iff : m.all p = true ↔
    ∀ i < m.rows.toNat, ∀ j < m.cols.toNat, p (m.entry i j) = true := by
  rw [all, Array.all_eq_true]
  constructor
  · intro h i hi j hj
    rw [entry, Array.getD_eq_getD_getElem?, Array.getElem?_eq_getElem (index_lt hi hj)]
    exact h _ (index_lt hi hj)
  · intro h k hk
    have hsize : k < m.rows.toNat * m.cols.toNat := m.size_entries ▸ hk
    have hcols : 0 < m.cols.toNat := Nat.pos_of_ne_zero fun h0 => by simp [h0] at hsize
    have hentry := h (k / m.cols.toNat) (Nat.div_lt_of_lt_mul (Nat.mul_comm _ _ ▸ hsize))
      (k % m.cols.toNat) (Nat.mod_lt _ hcols)
    rwa [entry, Nat.div_add_mod', Array.getD_eq_getD_getElem?, Array.getElem?_eq_getElem hk,
      Option.getD_some] at hentry

end DenseMatrix

/-! ## Stored positions -/

def Triplet.position (t : Triplet) : ℕ × ℕ := (t.row.toNat, t.col.toNat)

namespace SparseMatrix

variable {m : SparseMatrix} {i j : ℕ}

/-- All positions of the matrix, stored or not. -/
def positions (m : SparseMatrix) : Finset (ℕ × ℕ) :=
  Finset.range m.rows.toNat ×ˢ Finset.range m.cols.toNat

def occupied (m : SparseMatrix) : Finset (ℕ × ℕ) := (m.stored.map Triplet.position).toFinset

theorem card_positions (m : SparseMatrix) : m.positions.card = m.shape.count := by
  rw [positions, Finset.card_product, Finset.card_range, Finset.card_range]
  rfl

theorem mem_positions : (i, j) ∈ m.positions ↔ i < m.rows.toNat ∧ j < m.cols.toNat := by
  rw [positions, Finset.mem_product, Finset.mem_range, Finset.mem_range]

theorem nodup_positions (m : SparseMatrix) : (m.stored.map Triplet.position).Nodup := by
  refine List.pairwise_map.2 (m.sorted.imp ?_)
  intro s t hst heq
  simp only [Triplet.position, Prod.mk.injEq] at heq
  simp only [Triplet.Before, UInt64.lt_iff_toNat_lt, ← UInt64.toNat_inj] at hst
  omega

theorem card_occupied (m : SparseMatrix) : m.occupied.card = m.storedCount := by
  rw [occupied, List.toFinset_card_of_nodup m.nodup_positions, List.length_map, storedCount]

theorem mem_occupied {q : ℕ × ℕ} : q ∈ m.occupied ↔ ∃ t ∈ m.stored, t.position = q := by
  rw [occupied, List.mem_toFinset, List.mem_map]

theorem position_mem {t : Triplet} (ht : t ∈ m.stored) : t.position ∈ m.positions := by
  obtain ⟨hr, hc⟩ := m.inside t ht
  exact mem_positions.2 ⟨UInt64.lt_iff_toNat_lt.1 hr, UInt64.lt_iff_toNat_lt.1 hc⟩

theorem occupied_subset (m : SparseMatrix) : m.occupied ⊆ m.positions := by
  intro q hq
  obtain ⟨t, ht, rfl⟩ := mem_occupied.1 hq
  exact position_mem ht

/-- Fewer entries are stored than there are positions if and only if some position is not stored. -/
theorem storedCount_lt_iff :
    m.storedCount < m.shape.count ↔ ∃ q ∈ m.positions, q ∉ m.occupied := by
  rw [← card_occupied, ← card_positions]
  constructor
  · exact Finset.exists_mem_notMem_of_card_lt_card
  · rintro ⟨q, hq, hvacant⟩
    refine Finset.card_lt_card (Finset.ssubset_iff_subset_ne.2 ⟨m.occupied_subset, ?_⟩)
    rintro heq
    exact hvacant (heq ▸ hq)

/-! ## Entries -/

theorem entry_eq (m : SparseMatrix) (i j : ℕ) :
    m.entry i j = ((m.stored.find? (·.position == (i, j))).map Triplet.value).getD 0 := by
  have hfind : (m.stored.find? fun t => t.row.toNat == i && t.col.toNat == j) =
      m.stored.find? (·.position == (i, j)) := rfl
  rw [entry, hfind]
  cases m.stored.find? (·.position == (i, j)) <;> rfl

theorem entry_of_not_mem (h : (i, j) ∉ m.occupied) : m.entry i j = 0 := by
  have hfind : m.stored.find? (·.position == (i, j)) = none := by
    rw [List.find?_eq_none]
    intro t ht heq
    exact h (mem_occupied.2 ⟨t, ht, beq_iff_eq.1 heq⟩)
  rw [entry_eq, hfind, Option.map_none, Option.getD_none]

theorem entry_of_mem {t : Triplet} (ht : t ∈ m.stored) :
    m.entry t.row.toNat t.col.toNat = t.value := by
  change m.entry t.position.1 t.position.2 = t.value
  rw [entry_eq]
  cases hfind : m.stored.find? (·.position == t.position) with
  | none => exact absurd (beq_self_eq_true _) (List.find?_eq_none.1 hfind t ht)
  | some s =>
    have hs := List.mem_of_find?_eq_some hfind
    have heq : s.position = t.position := by simpa using List.find?_some hfind
    rw [List.inj_on_of_nodup_map m.nodup_positions hs ht heq, Option.map_some, Option.getD_some]

/-- What is true of every entry is true of the stored ones, and of zero if a position is not
stored. -/
theorem forall_entry_iff {P : Float → Prop} :
    (∀ i < m.rows.toNat, ∀ j < m.cols.toNat, P (m.entry i j)) ↔
      (∀ t ∈ m.stored, P t.value) ∧ (m.storedCount < m.shape.count → P 0) := by
  constructor
  · intro h
    refine ⟨fun t ht => ?_, fun hlt => ?_⟩
    · obtain ⟨hi, hj⟩ := mem_positions.1 (position_mem ht)
      exact entry_of_mem ht ▸ h _ hi _ hj
    · obtain ⟨⟨i, j⟩, hmem, hvacant⟩ := storedCount_lt_iff.1 hlt
      obtain ⟨hi, hj⟩ := mem_positions.1 hmem
      exact entry_of_not_mem hvacant ▸ h i hi j hj
  · rintro ⟨hstored, hzero⟩ i hi j hj
    by_cases hocc : (i, j) ∈ m.occupied
    · obtain ⟨t, ht, heq⟩ := mem_occupied.1 hocc
      obtain ⟨rfl, rfl⟩ := Prod.ext_iff.1 heq
      exact entry_of_mem ht ▸ hstored t ht
    · rw [entry_of_not_mem hocc]
      exact hzero (storedCount_lt_iff.2 ⟨_, mem_positions.2 ⟨hi, hj⟩, hocc⟩)

/-! ## Questions about all entries -/

variable {p : Float → Bool}

theorem all_of_lt (h : m.shape.count < UInt64.size) :
    m.all p = .ok (m.stored.all (fun t => p t.value) &&
      (!decide (m.storedCount < m.shape.count) || p 0)) := by
  have hmul : Word.mul m.rows m.cols = .ok (.ofNat m.shape.count) :=
    Word.mul_eq_ok_iff.2 (UInt64.toNat_ofNat_of_lt' h).symm
  rw [all, hmul]
  change Except.ok _ = _
  rw [UInt64.toNat_ofNat_of_lt' h]

theorem all_of_le (h : UInt64.size ≤ m.shape.count) : m.all p = .error .multiply := by
  have hmul : Word.mul m.rows m.cols = .error .multiply := Word.mul_eq_error_iff.2 ⟨h, rfl⟩
  rw [all, hmul]
  rfl

/-- Sparse storage answers as the entries do, if it does answer. -/
theorem all_eq_ok_iff {answer : Bool} : m.all p = .ok answer ↔ m.shape.count < UInt64.size ∧
    (answer = true ↔ ∀ i < m.rows.toNat, ∀ j < m.cols.toNat, p (m.entry i j) = true) := by
  by_cases h : m.shape.count < UInt64.size
  · rw [all_of_lt h, Except.ok.injEq, and_iff_right h, forall_entry_iff (P := fun v => p v = true),
      eq_comm, Bool.eq_iff_iff, Bool.and_eq_true, List.all_eq_true, Bool.or_eq_true,
      Bool.not_eq_true', decide_eq_false_iff_not, ← imp_iff_not_or]
  · rw [all_of_le (Nat.le_of_not_lt h)]
    exact iff_of_false nofun fun hcount => h hcount.1

theorem all_eq_error_iff {fault : Overflow} :
    m.all p = .error fault ↔ UInt64.size ≤ m.shape.count ∧ fault = .multiply := by
  by_cases h : m.shape.count < UInt64.size
  · rw [all_of_lt h]
    exact iff_of_false nofun fun hsize => Nat.not_le_of_lt h hsize.1
  · rw [all_of_le (Nat.le_of_not_lt h), Except.error.injEq, eq_comm,
      and_iff_right (Nat.le_of_not_lt h)]

/-! ## The same entries in dense storage -/

def toDense (m : SparseMatrix) : DenseMatrix where
  rows := m.rows
  cols := m.cols
  entries := .ofFn fun k : Fin (m.rows.toNat * m.cols.toNat) =>
    m.entry (k / m.cols.toNat) (k % m.cols.toNat)
  size_entries := Array.size_ofFn

theorem entry_toDense (hi : i < m.rows.toNat) (hj : j < m.cols.toNat) :
    m.toDense.entry i j = m.entry i j := by
  have hlt : i * m.cols.toNat + j < m.rows.toNat * m.cols.toNat := by
    have hindex := DenseMatrix.index_lt (m := m.toDense) hi hj
    rwa [m.toDense.size_entries] at hindex
  have hdiv : (i * m.cols.toNat + j) / m.cols.toNat = i := by
    rw [Nat.mul_comm, Nat.mul_add_div (by omega), Nat.div_eq_of_lt hj, Nat.add_zero]
  have hmod : (i * m.cols.toNat + j) % m.cols.toNat = j := by
    rw [Nat.mul_comm, Nat.mul_add_mod, Nat.mod_eq_of_lt hj]
  rw [DenseMatrix.entry, Array.getD_eq_getD_getElem?]
  change ((Array.ofFn _)[i * m.cols.toNat + j]?).getD 0 = _
  rw [Array.getElem?_ofFn, dif_pos hlt, Option.getD_some, hdiv, hmod]

end SparseMatrix

/-! ## Signs -/

/-- The sign that the entries of a matrix have. That all of them are zero is asked first. -/
def Sign.ofEntries (rows cols : ℕ) (entry : ℕ → ℕ → Float) : Sign :=
  if ∀ i < rows, ∀ j < cols, (entry i j == 0) = true then .zero
  else if ∀ i < rows, ∀ j < cols, entry i j > 0 then .positive
  else if ∀ i < rows, ∀ j < cols, entry i j < 0 then .negative
  else .unknown

theorem Sign.ofEntries_congr {rows cols : ℕ} {f g : ℕ → ℕ → Float}
    (h : ∀ i < rows, ∀ j < cols, f i j = g i j) :
    Sign.ofEntries rows cols f = .ofEntries rows cols g := by
  have hquestion : ∀ P : Float → Prop,
      (∀ i < rows, ∀ j < cols, P (f i j)) ↔ ∀ i < rows, ∀ j < cols, P (g i j) := fun P =>
    forall₂_congr fun i hi => forall₂_congr fun j hj => by rw [h i hi j hj]
  simp only [ofEntries, hquestion (fun v => (v == 0) = true), hquestion (· > 0),
    hquestion (· < 0)]

namespace Value

/-- Every question about a value is answered as the entries do. -/
def Answers (v : Value) : Prop :=
  ∀ p, ∃ answer, v.all? p = .ok answer ∧ (answer = true ↔
    ∀ i < v.shape.rows.toNat, ∀ j < v.shape.cols.toNat, p (v.entry i j) = true)

variable {v : Value}

theorem answers_dense (m : DenseMatrix) : (dense m).Answers :=
  fun p => ⟨m.all p, rfl, DenseMatrix.all_iff⟩

theorem answers_sparse {m : SparseMatrix} (h : m.shape.count < UInt64.size) :
    (sparse m).Answers := by
  intro p
  have hall := SparseMatrix.all_of_lt (p := p) h
  exact ⟨_, hall, (SparseMatrix.all_eq_ok_iff.1 hall).2⟩

/-- Every question is answered, or none is. -/
theorem answers_or_overflows (v : Value) : v.Answers ∨ ∀ p, v.all? p = .error .multiply := by
  cases v with
  | scalar x =>
    refine .inl fun p => ⟨p x, rfl, fun h i _ j _ => h, fun h => ?_⟩
    exact h 0 Nat.one_pos 0 Nat.one_pos
  | dense m => exact .inl (answers_dense m)
  | sparse m =>
    by_cases h : m.shape.count < UInt64.size
    · exact .inl (answers_sparse h)
    · exact .inr fun p => SparseMatrix.all_of_le (Nat.le_of_not_lt h)

theorem Answers.sign?_eq (h : v.Answers) :
    v.sign? = .ok (.ofEntries v.shape.rows.toNat v.shape.cols.toNat v.entry) := by
  choose answer hall hanswer using h
  have hsign : v.sign? = .ok (if answer (· == 0) then .zero else if answer (· > 0) then .positive
      else if answer (· < 0) then .negative else .unknown) := by
    simp only [sign?, hall]
    cases answer (· == 0) <;> cases answer (· > 0) <;> cases answer (· < 0) <;> rfl
  simp only [hsign, hanswer, Sign.ofEntries, decide_eq_true_eq]

theorem sign?_of_error {fault : Overflow} (h : ∀ p, v.all? p = .error fault) :
    v.sign? = .error fault := by
  rw [sign?, h]
  rfl

theorem sign?_sparse_eq_ok_iff {m : SparseMatrix} {s : Sign} : (sparse m).sign? = .ok s ↔
    m.shape.count < UInt64.size ∧ s = .ofEntries m.rows.toNat m.cols.toNat m.entry := by
  by_cases h : m.shape.count < UInt64.size
  · rw [(answers_sparse h).sign?_eq, Except.ok.injEq, eq_comm, and_iff_right h]
    rfl
  · rw [sign?_of_error (v := sparse m) fun p => SparseMatrix.all_of_le (Nat.le_of_not_lt h)]
    exact iff_of_false nofun fun hcount => h hcount.1

end Value

namespace SparseMatrix

/-- Sparse storage answers a question about all entries, and finds their sign, exactly if the
positions can be counted in a word; and then it answers as the entries do, and as dense storage.
Otherwise the count of the positions overflows. -/
theorem agrees_iff (m : SparseMatrix) :
    (∀ p answer, m.all p = .ok answer ↔ m.shape.count < UInt64.size ∧
      (answer = true ↔ ∀ i < m.rows.toNat, ∀ j < m.cols.toNat, p (m.entry i j) = true)) ∧
    (∀ p fault, m.all p = .error fault ↔ UInt64.size ≤ m.shape.count ∧ fault = .multiply) ∧
    (∀ s, (Value.sparse m).sign? = .ok s ↔ m.shape.count < UInt64.size ∧
      s = .ofEntries m.rows.toNat m.cols.toNat m.entry) ∧
    (Value.dense m.toDense).sign? = .ok (.ofEntries m.rows.toNat m.cols.toNat m.entry) := by
  refine ⟨fun p answer => all_eq_ok_iff, fun p fault => all_eq_error_iff,
    fun s => Value.sign?_sparse_eq_ok_iff, ?_⟩
  have hdense : (Value.dense m.toDense).sign? =
      .ok (.ofEntries m.rows.toNat m.cols.toNat m.toDense.entry) :=
    (Value.answers_dense m.toDense).sign?_eq
  rw [hdense, Sign.ofEntries_congr fun i hi j hj => entry_toDense hi hj]

/-- Two columns with one position more than a word can count. -/
def tall : SparseMatrix where
  rows := 0x8000000000000000
  cols := 2
  stored := [⟨0, 0, 1⟩]
  sorted := List.pairwise_singleton _ _
  inside := by decide

/-- All entries but one are zero, so that not all of them are positive, and their sign is unknown.
Asked for either, sparse storage overflows. -/
theorem tall_overflows :
    tall.all (· > 0) = .error .multiply ∧ (Value.sparse tall).sign? = .error .multiply ∧
    tall.entry 0 0 = 1 ∧ tall.entry 1 0 = 0 ∧
    Sign.ofEntries tall.rows.toNat tall.cols.toNat tall.entry = .unknown := by
  have hone : tall.entry 0 0 = 1 := rfl
  have hzero : tall.entry 1 0 = 0 := rfl
  have hrows : 1 < tall.rows.toNat := by decide
  have hcols : 0 < tall.cols.toNat := by decide
  refine ⟨by decide +kernel, by decide +kernel, hone, hzero, ?_⟩
  have hnotzero : ¬ ∀ i < tall.rows.toNat, ∀ j < tall.cols.toNat, (tall.entry i j == 0) = true := by
    intro h
    have hentry := h 0 (Nat.zero_lt_of_lt hrows) 0 hcols
    rw [hone] at hentry
    exact absurd hentry (by decide)
  have hnotpos : ¬ ∀ i < tall.rows.toNat, ∀ j < tall.cols.toNat, tall.entry i j > 0 := by
    intro h
    have hentry := h 1 hrows 0 hcols
    rw [hzero] at hentry
    exact absurd hentry (by decide)
  have hnotneg : ¬ ∀ i < tall.rows.toNat, ∀ j < tall.cols.toNat, tall.entry i j < 0 := by
    intro h
    have hentry := h 1 hrows 0 hcols
    rw [hzero] at hentry
    exact absurd hentry (by decide)
  rw [Sign.ofEntries, if_neg hnotzero, if_neg hnotpos, if_neg hnotneg]

end SparseMatrix

end DisciplinedConvex
