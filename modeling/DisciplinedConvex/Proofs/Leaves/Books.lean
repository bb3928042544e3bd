import Mathlib.Data.List.Sort
import DisciplinedConvex.Proofs.Leaves.Session

/-! # Lists of variables

* `Expr.mem_variableIds` and `Problem.mem_variableIds` say which ids are listed, and
  `Expr.keys_variableShapes` and `Problem.keys_variableShapes` that the two lists have the same ids.
* `Session.step_accounts` is the step of a session: the next id counts the leaves so far, and the
  answers hold no others. `Session.run_accounts` is the run.
* `Session.keeps_books` puts them together: no id is used twice, so the list of shapes has the shape
  of every variable.
-/

namespace DisciplinedConvex
set_option autoImplicit false

/-! ## The two lists -/

/-- An increasing list of numbers is determined by its members. -/
theorem collectBy_id_eq {l : List Nat} {k : List Nat} (h : k.Pairwise (· < ·))
    (hmem : ∀ i, i ∈ k ↔ i ∈ l) : k = collectBy id l := by
  refine h.eq_of_mem_iff (pairwise_collectBy l) fun i => ?_
  rw [hmem, ← List.map_id (collectBy id l), mem_keys_collectBy, List.map_id]

theorem mem_collectBy_id {i : Nat} {l : List Nat} : i ∈ collectBy id l ↔ i ∈ l := by
  rw [← List.map_id (collectBy id l), mem_keys_collectBy, List.map_id]

namespace Expr

variable {e : Expr} {i : Nat}

theorem mem_variableIds : i ∈ e.variableIds ↔ ∃ v, e.Reaches (var v) ∧ v.id = i := by
  unfold variableIds
  rw [mem_collectBy_id, List.mem_map]
  simp only [mem_leaves_iff]

theorem keys_variableShapes (e : Expr) : e.variableShapes.map Prod.fst = e.variableIds := by
  refine collectBy_id_eq (List.pairwise_map.2 (pairwise_collectBy _)) fun i => ?_
  rw [variableShapes, mem_keys_collectBy, List.map_map]
  rfl

theorem of_mem_variableShapes {s : Shape} (h : (i, s) ∈ e.variableShapes) :
    ∃ v, e.Reaches (var v) ∧ v.id = i ∧ v.shape = s := by
  obtain ⟨v, hv, heq⟩ := List.mem_map.1 (mem_of_mem_collectBy h)
  cases heq
  exact ⟨v, mem_leaves_iff.1 hv, rfl, rfl⟩

end Expr

namespace Problem

variable {p : Problem} {i : Nat}

/-- The variable is in the objective or in an expression of a constraint. -/
def Occurs (p : Problem) (v : Variable) : Prop := ∃ e ∈ p.expressions, e.Reaches (.var v)

theorem variableShapes_eq (p : Problem) :
    p.variableShapes = collectBy Prod.fst (p.expressions.flatMap Expr.variableShapes) := by
  rw [variableShapes, expressions, List.flatMap_cons, List.flatMap_assoc]

/-- Sorting the ids of each constraint first makes no difference. -/
theorem mem_variableIds_iff_expressions :
    i ∈ p.variableIds ↔ i ∈ p.expressions.flatMap Expr.variableIds := by
  unfold variableIds expressions
  rw [mem_collectBy_id, List.flatMap_cons, List.mem_append, List.mem_append, List.flatMap_assoc,
    List.mem_flatMap, List.mem_flatMap]
  simp only [Constraint.variableIds, mem_collectBy_id]

theorem mem_variableIds : i ∈ p.variableIds ↔ ∃ v, p.Occurs v ∧ v.id = i := by
  rw [mem_variableIds_iff_expressions, List.mem_flatMap]
  constructor
  · rintro ⟨e, he, hi⟩
    obtain ⟨v, hv, hid⟩ := Expr.mem_variableIds.1 hi
    exact ⟨v, ⟨e, he, hv⟩, hid⟩
  · rintro ⟨v, ⟨e, he, hv⟩, hid⟩
    exact ⟨e, he, Expr.mem_variableIds.2 ⟨v, hv, hid⟩⟩

theorem keys_variableShapes (p : Problem) : p.variableShapes.map Prod.fst = p.variableIds := by
  refine collectBy_id_eq (List.pairwise_map.2 (pairwise_collectBy _)) fun i => ?_
  rw [variableShapes_eq, mem_keys_collectBy, List.map_flatMap]
  simp only [Expr.keys_variableShapes]
  rw [← mem_variableIds_iff_expressions, variableIds, mem_collectBy_id]

theorem of_mem_variableShapes {s : Shape} (h : (i, s) ∈ p.variableShapes) :
    ∃ v, p.Occurs v ∧ v.id = i ∧ v.shape = s := by
  rw [variableShapes_eq] at h
  obtain ⟨e, he, h⟩ := List.mem_flatMap.1 (mem_of_mem_collectBy h)
  obtain ⟨v, hv, hid, hs⟩ := Expr.of_mem_variableShapes h
  exact ⟨v, ⟨e, he, hv⟩, hid, hs⟩

end Problem

/-! ## Books -/

/-- The ids and the shapes that are listed for the variables that occur. -/
structure Books (Occurs : Variable → Prop) (ids : List Nat) (shapes : List (Nat × Shape)) :
    Prop where
  increasing : ids.Pairwise (· < ·)
  mem_ids : ∀ i, i ∈ ids ↔ ∃ v, Occurs v ∧ v.id = i
  keys_shapes : shapes.map Prod.fst = ids
  unique : ∀ v w, Occurs v → Occurs w → v.id = w.id → v = w
  mem_shapes : ∀ i s, (i, s) ∈ shapes ↔ ∃ v, Occurs v ∧ v.id = i ∧ v.shape = s

/-- Where no two variables have one id, the shape that is listed with an id is that of its
variable. -/
theorem Books.of_unique {Occurs : Variable → Prop} {ids : List Nat} {shapes : List (Nat × Shape)}
    (hincreasing : ids.Pairwise (· < ·)) (hids : ∀ i, i ∈ ids ↔ ∃ v, Occurs v ∧ v.id = i)
    (hkeys : shapes.map Prod.fst = ids)
    (hshapes : ∀ i s, (i, s) ∈ shapes → ∃ v, Occurs v ∧ v.id = i ∧ v.shape = s)
    (hunique : ∀ v w, Occurs v → Occurs w → v.id = w.id → v = w) : Books Occurs ids shapes := by
  refine ⟨hincreasing, hids, hkeys, hunique, fun i s => ⟨hshapes i s, ?_⟩⟩
  rintro ⟨v, hv, rfl, rfl⟩
  have hlisted : v.id ∈ shapes.map Prod.fst := hkeys ▸ (hids v.id).2 ⟨v, hv, rfl⟩
  obtain ⟨⟨i, s⟩, hmem, heq⟩ := List.mem_map.1 hlisted
  cases heq
  obtain ⟨w, hw, hid, rfl⟩ := hshapes _ _ hmem
  rw [hunique v w hv hw hid.symm] at hmem ⊢
  exact hmem

section

variable {H : List Expr}

/-- Among leaves with ids of their own the id tells the variable. -/
theorem Variable.eq_of_id_eq (hH : (H.map Expr.leafId?).Nodup) {v w : Variable}
    (hv : Expr.var v ∈ H) (hw : Expr.var w ∈ H) (h : v.id = w.id) : v = w :=
  Expr.var.inj (List.inj_on_of_nodup_map hH hv hw (congrArg some h))

theorem Expr.books (hH : (H.map leafId?).Nodup) {e : Expr} (he : e.LeavesIn H) :
    Books (fun v => e.Reaches (var v)) e.variableIds e.variableShapes := by
  refine .of_unique (pairwise_collectBy _) (fun i => mem_variableIds) e.keys_variableShapes
    (fun i s => of_mem_variableShapes) fun v w hv hw => ?_
  have hreach := leavesIn_iff_reaches.1 he
  exact Variable.eq_of_id_eq hH (hreach _ hv rfl) (hreach _ hw rfl)

theorem Problem.books (hH : (H.map Expr.leafId?).Nodup) {p : Problem}
    (hp : AllIn H p.expressions) : Books p.Occurs p.variableIds p.variableShapes := by
  refine .of_unique (pairwise_collectBy _) (fun i => mem_variableIds) p.keys_variableShapes
    (fun i s => of_mem_variableShapes) ?_
  rintro v w ⟨x, hx, hv⟩ ⟨y, hy, hw⟩
  exact Variable.eq_of_id_eq hH (Expr.leavesIn_iff_reaches.1 (hp x hx) _ hv rfl)
    (Expr.leavesIn_iff_reaches.1 (hp y hy) _ hw rfl)

end

/-! ## Sessions -/

namespace Session

/-- The leaves that the steps make, in the order in which they are made. Those of a step that fails
are among them. -/
def made (s : Session) : List Step → List Expr
  | [] => []
  | st :: rest => Supply.made s.nextId (st.eval s.memory) ++ (s.step st).2.made rest

/-- The next id counts the leaves, and the answers hold no others. -/
structure Accounts (H : List Expr) (s : Session) : Prop where
  nextId_eq : s.nextId = H.length
  leavesIn : s.memory.LeavesIn H

variable {H : List Expr} {s : Session}

theorem accounts_nil : Accounts [] {} := ⟨rfl, fun _ ha => nomatch ha⟩

theorem nextId_step (s : Session) (st : Step) :
    (s.step st).2.nextId = s.nextId + (Supply.made s.nextId (st.eval s.memory)).length :=
  Supply.snd_run s.nextId (st.eval s.memory)

theorem step_accounts (h : s.Accounts H) (st : Step) :
    (s.step st).2.Accounts (H ++ Supply.made s.nextId (st.eval s.memory)) := by
  refine ⟨?_, ?_⟩
  · rw [nextId_step, List.length_append, h.nextId_eq]
  · have hanswer := Supply.yields_iff.1 (st.yields_eval h.leavesIn)
    rw [← h.nextId_eq] at hanswer
    -- a step that fails holds nothing, but the ids of its leaves stay used
    refine (h.leavesIn.mono (List.subset_append_left H _)).push (Answer.leavesIn_labelled ?_ _)
    split
    · rename_i a ha
      exact hanswer a ha
    · exact fun e he => nomatch he

theorem run_accounts (h : s.Accounts H) (steps : List Step) :
    (s.run steps).Accounts (H ++ s.made steps) := by
  induction steps generalizing s H with
  | nil =>
    rw [made, List.append_nil]
    exact h
  | cons st rest ih =>
    rw [made, ← List.append_assoc]
    exact ih (step_accounts h st)

/-- Ids are handed out one after another. -/
theorem leafIds_made (s : Session) (steps : List Step) :
    (s.made steps).map Expr.leafId? = (List.range' s.nextId (s.made steps).length).map some := by
  induction steps generalizing s with
  | nil => rfl
  | cons st rest ih =>
    rw [made, List.map_append, Supply.leafIds_made, ih, nextId_step, List.length_append,
      ← List.map_append, List.range'_append_1]

/-- After any steps, those that fail among them, the leaves that were made have the ids from zero on
in the order in which they were made, nothing that is held has another leaf, and the lists of every
expression and problem are those of the variables that occur in it. -/
theorem keeps_books (steps : List Step) :
    (made {} steps).map Expr.leafId? = (List.range (run {} steps).nextId).map some ∧
    ∀ a ∈ (run {} steps).memory,
      (∀ e ∈ a.expressions, ∀ y, e.Reaches y → (y.isLeaf → y ∈ made {} steps) ∧
        Books (fun v => y.Reaches (.var v)) y.variableIds y.variableShapes) ∧
      ∀ p ∈ a.problems, Books p.Occurs p.variableIds p.variableShapes := by
  have hrun := run_accounts accounts_nil steps
  rw [List.nil_append] at hrun
  have hids : (made {} steps).map Expr.leafId? = (List.range (run {} steps).nextId).map some := by
    rw [leafIds_made, hrun.nextId_eq, List.range_eq_range']
  have hnodup : ((made {} steps).map Expr.leafId?).Nodup := by
    rw [hids]
    exact (List.nodup_range).map (Option.some_injective Nat)
  refine ⟨hids, fun a ha => ⟨fun e he y hy => ?_, fun p hp => ?_⟩⟩
  · have hleaves : y.LeavesIn (made {} steps) :=
      hy.keep (fun _ h _ hx => h.of_mem_args hx) (hrun.leavesIn a ha e he)
    exact ⟨hleaves.self, Expr.books hnodup hleaves⟩
  · exact Problem.books hnodup fun e he => hrun.leavesIn a ha e (Answer.mem_expressions hp he)

end Session

end DisciplinedConvex
