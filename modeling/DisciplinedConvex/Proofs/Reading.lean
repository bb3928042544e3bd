import DisciplinedConvex.Session.Run
import DisciplinedConvex.Proofs.Storage.Positions

/-! # Reading back numbers

The number that a solution assigns to an expression.

* `Value.scalar?_eq_some_iff` says which values are read as numbers: those of one entry, unless they
  are in sparse storage.
* `Solution.Refuses` lists the causes for which an expression has no number, and
  `Solution.number_eq_ok_iff` and `Solution.number_eq_error_iff` say what is read in every case.
* A session reads in two ways. Where there is no number, one rejects the step and the other aborts it
  (`Session.answer_read`).
* `Solution.number_by_storage` puts these together, and `Solution.sparse_number_refused` is a number
  that is not read.
-/

namespace DisciplinedConvex
set_option autoImplicit false

/-! ## Values of one entry -/

namespace Value

def isSparse : Value → Bool
  | sparse _ => true
  | _ => false

theorem scalar?_eq_some_iff {v : Value} {x : Float} :
    v.scalar? = some x ↔ v.shape = .scalar ∧ v.isSparse = false ∧ v.entry 0 0 = x := by
  cases v with
  | scalar y => simp [scalar?, shape, isSparse, entry]
  | dense m => simp [scalar?, shape, isSparse, entry, Shape.isScalar_iff]
  | sparse m => simp [scalar?, isSparse]

theorem scalar?_eq_none_iff {v : Value} :
    v.scalar? = none ↔ v.shape ≠ .scalar ∨ v.isSparse = true := by
  cases v with
  | scalar y => simp [scalar?, shape, isSparse]
  | dense m => simp [scalar?, shape, isSparse, Shape.isScalar_iff]
  | sparse m => simp [scalar?, isSparse]

end Value

/-! ## Numbers of a solution -/

namespace Solution

/-- Why a solution has no number for an expression. -/
inductive Refuses (s : Solution) (e : Expr) : ProblemFault → Prop where
  | notVariable (h : e.variableId? = none) : Refuses s e .notVariable
  | notInSolution {v : Variable} (he : e = .var v) (h : s.assigned? v.id = none) :
    Refuses s e .notInSolution
  | notScalar {v : Variable} {a : Value} (he : e = .var v) (ha : s.assigned? v.id = some a)
    (h : a.shape ≠ .scalar ∨ a.isSparse = true) : Refuses s e .notScalar

variable {s : Solution} {e : Expr} {x : Float}

theorem number_of_scalar {v : Variable} {a : Value} (ha : s.assigned? v.id = some a)
    (hx : a.scalar? = some x) : s.number (.var v) = .ok x := by
  simp only [number, Expr.variableId?, ha, hx]

theorem Refuses.number_eq {fault : ProblemFault} (h : s.Refuses e fault) :
    s.number e = .error (.problem fault) := by
  cases h with
  | notVariable h => simp only [number, h]
  | notInSolution he h => simp only [number, he, Expr.variableId?, h]
  | notScalar he ha h =>
    rw [← Value.scalar?_eq_none_iff] at h
    simp only [number, he, Expr.variableId?, ha, h]

/-- One of the three lookups fails, or there is a number. -/
theorem refuses_or_number (s : Solution) (e : Expr) : (∃ fault, s.Refuses e fault) ∨
    ∃ v a x, e = .var v ∧ s.assigned? v.id = some a ∧ a.scalar? = some x := by
  cases e with
  | var v =>
    cases ha : s.assigned? v.id with
    | none => exact .inl ⟨_, .notInSolution rfl ha⟩
    | some a =>
      cases hx : a.scalar? with
      | none => exact .inl ⟨_, .notScalar rfl ha (Value.scalar?_eq_none_iff.1 hx)⟩
      | some x => exact .inr ⟨v, a, x, rfl, ha, hx⟩
  | _ => exact .inl ⟨_, .notVariable rfl⟩

theorem number_eq_ok_iff : s.number e = .ok x ↔ ∃ v a, e = .var v ∧ s.assigned? v.id = some a ∧
    a.shape = .scalar ∧ a.isSparse = false ∧ a.entry 0 0 = x := by
  simp only [← Value.scalar?_eq_some_iff]
  constructor
  · intro h
    rcases s.refuses_or_number e with ⟨fault, hfault⟩ | ⟨v, a, y, rfl, ha, hy⟩
    · cases hfault.number_eq.symm.trans h
    · cases (number_of_scalar ha hy).symm.trans h
      exact ⟨v, a, rfl, ha, hy⟩
  · rintro ⟨v, a, rfl, ha, hx⟩
    exact number_of_scalar ha hx

theorem number_eq_error_iff {error : Error} :
    s.number e = .error error ↔ ∃ fault, s.Refuses e fault ∧ error = .problem fault := by
  constructor
  · intro h
    rcases s.refuses_or_number e with ⟨fault, hfault⟩ | ⟨v, a, y, rfl, ha, hy⟩
    · cases hfault.number_eq.symm.trans h
      exact ⟨fault, hfault, rfl⟩
    · cases (number_of_scalar ha hy).symm.trans h
  · rintro ⟨fault, hfault, rfl⟩
    exact hfault.number_eq

end Solution

/-! ## Reading in a session -/

/-- What is answered where a number was asked for. -/
def Answer.ofReading (aborting : Bool) : Except Error Float → Answer
  | .ok x => .number x
  | .error error => .failed (if aborting then .aborted (.error error) else .rejected error)

theorem Answer.ofReading_eq_number_iff {aborting : Bool} {r : Except Error Float} {x : Float} :
    ofReading aborting r = .number x ↔ r = .ok x := by
  cases r <;> simp [ofReading]

theorem Answer.ofReading_eq_failed_iff {aborting : Bool} {r : Except Error Float} {f : Failure} :
    ofReading aborting r = .failed f ↔ ∃ error, r = .error error ∧
      f = if aborting then .aborted (.error error) else .rejected error := by
  cases r <;> simp [ofReading, eq_comm]

theorem Session.answer_read {session : Session} {s : Solution} {e : Expr} {i k : Nat}
    (hs : session.memory.solution? i = some s) (he : session.memory.expression? k = some e)
    (aborting : Bool) :
    (session.step (.read aborting i (.step k))).1 = .ofReading aborting (s.number e) := by
  have heval : (Step.read aborting i (.step k)).eval session.memory =
      (Eval.settle aborting (s.number e) >>= fun x => pure (.number x)) := by
    simp only [Step.eval, Operand.eval, hs, he, Eval.require]
    rfl
  unfold step
  rw [heval]
  cases hnumber : s.number e with
  | ok x => rfl
  | error error =>
    -- an error of the problem is never fatal
    obtain ⟨fault, -, rfl⟩ := Solution.number_eq_error_iff.1 hnumber
    cases aborting <;> rfl

namespace Solution

/-- A solution has a number for an expression if and only if that is a variable, and the value that
is assigned to it has one entry and is not in sparse storage; and the number is this entry. All else
is an error of the problem, with the lookup that fails for its cause. A session that reads answers
with the number exactly if there is one, and otherwise is rejected or aborted with that error. -/
theorem number_by_storage (s : Solution) (e : Expr) :
    (∀ x, s.number e = .ok x ↔ ∃ v a, e = .var v ∧ s.assigned? v.id = some a ∧
      a.shape = .scalar ∧ a.isSparse = false ∧ a.entry 0 0 = x) ∧
    (∀ error, s.number e = .error error ↔ ∃ fault, s.Refuses e fault ∧ error = .problem fault) ∧
    ∀ (session : Session) (i k : Nat), session.memory.solution? i = some s →
      session.memory.expression? k = some e → ∀ aborting,
        (∀ x, (session.step (.read aborting i (.step k))).1 = .number x ↔ s.number e = .ok x) ∧
        ∀ f, (session.step (.read aborting i (.step k))).1 = .failed f ↔
          ∃ error, s.number e = .error error ∧
            f = if aborting then .aborted (.error error) else .rejected error := by
  refine ⟨fun x => number_eq_ok_iff, fun error => number_eq_error_iff, ?_⟩
  intro session i k hs he aborting
  rw [Session.answer_read hs he]
  exact ⟨fun x => Answer.ofReading_eq_number_iff, fun f => Answer.ofReading_eq_failed_iff⟩

/-! ### One number in two storages -/

def assigning (a : Value) : Solution := { status := .optimal, primal? := some [(0, a)] }

def lone : SparseMatrix where
  rows := 1
  cols := 1
  stored := [⟨0, 0, 5⟩]
  sorted := List.pairwise_singleton _ _
  inside := by decide

def point : Expr := .var ⟨0, {}⟩

def reader : Session where
  memory := #[.solved (assigning (.dense lone.toDense)) [], .solved (assigning (.sparse lone)) [],
    .expression point]

theorem number_by_storage_lone :
    reader.memory.solution? 0 = some (assigning (.dense lone.toDense)) ∧
    reader.memory.solution? 1 = some (assigning (.sparse lone)) ∧
    reader.memory.expression? 2 = some point ∧
    (reader.step (.read true 0 (.step 2))).1 = .number 5 ∧
    (reader.step (.read true 1 (.step 2))).1 = .failed (.aborted (.error (.problem .notScalar))) := by
  obtain ⟨hnumber, -, hdense⟩ := number_by_storage (assigning (.dense lone.toDense)) point
  obtain ⟨-, herror, hsparse⟩ := number_by_storage (assigning (.sparse lone)) point
  have hfive : (assigning (.dense lone.toDense)).number point = .ok 5 :=
    (hnumber 5).2 ⟨⟨0, {}⟩, .dense lone.toDense, rfl, rfl, rfl, rfl, rfl⟩
  have hrefused : (assigning (.sparse lone)).number point = .error (.problem .notScalar) :=
    (herror _).2 ⟨.notScalar, .notScalar (v := ⟨0, {}⟩) (a := .sparse lone) rfl rfl (.inr rfl), rfl⟩
  exact ⟨rfl, rfl, rfl, ((hdense reader 0 2 rfl rfl true).1 5).2 hfive,
    ((hsparse reader 1 2 rfl rfl true).2 _).2 ⟨_, hrefused, rfl⟩⟩

/-- A scalar variable, and a value of one entry for it. It is refused for not being a scalar, and the
same entry in dense storage is read. -/
theorem sparse_number_refused :
    point.shape = .scalar ∧ (Value.sparse lone).shape = .scalar ∧
    (Value.sparse lone).entry 0 0 = 5 ∧
    (assigning (.sparse lone)).number point = .error (.problem .notScalar) ∧
    (Value.dense lone.toDense).entry 0 0 = 5 ∧
    (assigning (.dense lone.toDense)).number point = .ok 5 :=
  ⟨rfl, rfl, rfl, rfl, rfl, rfl⟩

end Solution

end DisciplinedConvex
