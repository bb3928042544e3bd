/-! # Lists by increasing key

* `collectBy` sorts a list by a key and then drops every entry with the key of the one kept before
  it. The sort is stable, so of the entries with one key the first stays.
* Keys increase strictly (`pairwise_collectBy`) and are those of the list (`mem_keys_collectBy`).
-/

namespace DisciplinedConvex
set_option autoImplicit false

/-- Of neighbours with one key the first stays. -/
def dedupBy {α : Type} (key : α → Nat) : List α → List α
  | [] => []
  | a :: rest => a :: after (key a) rest
where
  /-- What stays of a list after an entry with key `k`. -/
  after (k : Nat) : List α → List α
    | [] => []
    | b :: rest => if key b = k then after k rest else b :: after (key b) rest

def collectBy {α : Type} (key : α → Nat) (l : List α) : List α :=
  dedupBy key (l.mergeSort fun a b => key a ≤ key b)

section

variable {α : Type} {key : α → Nat}

theorem sublist_after (k : Nat) (l : List α) : (dedupBy.after key k l).Sublist l := by
  induction l generalizing k with
  | nil => exact .slnil
  | cons b rest ih =>
    rw [dedupBy.after]
    split
    · exact (ih k).cons b
    · exact (ih (key b)).cons_cons b

theorem sublist_dedupBy (l : List α) : (dedupBy key l).Sublist l := by
  cases l with
  | nil => exact .slnil
  | cons a rest => exact (sublist_after (key a) rest).cons_cons a

theorem mem_keys_after (k i : Nat) (l : List α) :
    i = k ∨ i ∈ (dedupBy.after key k l).map key ↔ i = k ∨ i ∈ l.map key := by
  induction l generalizing k with
  | nil => rfl
  | cons b rest ih =>
    rw [dedupBy.after, List.map_cons, List.mem_cons]
    split
    · rename_i h
      rw [ih k, h, ← or_assoc, or_self]
    · rw [List.map_cons, List.mem_cons, ih (key b)]

theorem mem_keys_dedupBy (i : Nat) (l : List α) :
    i ∈ (dedupBy key l).map key ↔ i ∈ l.map key := by
  cases l with
  | nil => rfl
  | cons a rest =>
    rw [dedupBy, List.map_cons, List.mem_cons, List.map_cons, List.mem_cons, mem_keys_after]

/-- In a sorted list the keys that stay after `k` are larger. -/
theorem pairwise_after {k : Nat} {l : List α} (h : l.Pairwise (key · ≤ key ·))
    (hk : ∀ a ∈ l, k ≤ key a) :
    (∀ a ∈ dedupBy.after key k l, k < key a) ∧
      (dedupBy.after key k l).Pairwise (key · < key ·) := by
  induction l generalizing k with
  | nil => exact ⟨fun a ha => absurd ha List.not_mem_nil, .nil⟩
  | cons b rest ih =>
    obtain ⟨hb, hrest⟩ := List.pairwise_cons.1 h
    rw [dedupBy.after]
    split
    · exact ih hrest fun a ha => hk a (List.mem_cons_of_mem b ha)
    · rename_i hne
      have hlt : k < key b := Nat.lt_of_le_of_ne (hk b List.mem_cons_self) (Ne.symm hne)
      obtain ⟨hafter, hpairs⟩ := ih hrest hb
      refine ⟨?_, List.pairwise_cons.2 ⟨hafter, hpairs⟩⟩
      intro a ha
      rcases List.mem_cons.1 ha with rfl | ha
      · exact hlt
      · exact Nat.lt_trans hlt (hafter a ha)

theorem pairwise_dedupBy {l : List α} (h : l.Pairwise (key · ≤ key ·)) :
    (dedupBy key l).Pairwise (key · < key ·) := by
  cases l with
  | nil => exact .nil
  | cons a rest =>
    obtain ⟨ha, hrest⟩ := List.pairwise_cons.1 h
    exact List.pairwise_cons.2 (pairwise_after hrest ha)

/-! ## Sorted and each once -/

theorem pairwise_collectBy (l : List α) : (collectBy key l).Pairwise (key · < key ·) := by
  refine pairwise_dedupBy ((List.pairwise_mergeSort ?_ ?_ l).imp of_decide_eq_true)
  · intro a b c hab hbc
    simp only [decide_eq_true_eq] at hab hbc ⊢
    exact Nat.le_trans hab hbc
  · intro a b
    simp only [Bool.or_eq_true, decide_eq_true_eq]
    exact Nat.le_total (key a) (key b)

theorem mem_of_mem_collectBy {a : α} {l : List α} (h : a ∈ collectBy key l) : a ∈ l :=
  List.mem_mergeSort.1 ((sublist_dedupBy _).mem h)

theorem mem_keys_collectBy (i : Nat) (l : List α) :
    i ∈ (collectBy key l).map key ↔ i ∈ l.map key := by
  rw [collectBy, mem_keys_dedupBy, List.mem_map, List.mem_map]
  simp only [List.mem_mergeSort]

theorem collectBy_eq_nil_iff {l : List α} : collectBy key l = [] ↔ l = [] := by
  rw [← List.map_eq_nil_iff (f := key), List.eq_nil_iff_forall_not_mem]
  simp only [mem_keys_collectBy]
  rw [← List.eq_nil_iff_forall_not_mem, List.map_eq_nil_iff]

end

end DisciplinedConvex
