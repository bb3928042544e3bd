import DisciplinedConvex.Session.Run
import DisciplinedConvex.Proofs.Leaves.Made

/-! # Leaves of a session

* `Answer.LeavesIn` and `Memory.LeavesIn` say that answers have no leaves but the given ones.
* `Eval.Yields` is `Supply.Yields` for a computation that may fail; a failure holds nothing.
* `Step.yields_eval` is the result: an answer has no leaves but those of the answers before it and
  those that are made on the way.
-/

namespace DisciplinedConvex
set_option autoImplicit false

/-! ## What an answer holds -/

/-- All of a list of expressions have no leaves but `H`. -/
def AllIn (H : List Expr) (es : List Expr) : Prop := ∀ e ∈ es, e.LeavesIn H

namespace Answer

/-- The problems that were obtained, or handed on. -/
def problems : Answer → List Problem
  | draft d => [d.build]
  | problem p => [p]
  | solved _ calls | unsolved _ calls => calls.map Call.problem
  | _ => []

def expressions : Answer → List Expr
  | expression e | inspected e => [e]
  | entries es => es
  | constraint c => c.expressions
  | objective o => [o.expr]
  | a => a.problems.flatMap Problem.expressions

theorem mem_expressions {a : Answer} {p : Problem} {e : Expr} (hp : p ∈ a.problems)
    (he : e ∈ p.expressions) : e ∈ a.expressions := by
  cases a
  case draft | problem | solved | unsolved => exact List.mem_flatMap.2 ⟨p, hp, he⟩
  all_goals cases hp

def LeavesIn (H : List Expr) (a : Answer) : Prop := AllIn H a.expressions

end Answer

def Memory.LeavesIn (H : List Expr) (m : Memory) : Prop := ∀ a ∈ m, a.LeavesIn H

section

variable {H K : List Expr}

theorem AllIn.mono {es : List Expr} (h : AllIn H es) (hK : H ⊆ K) : AllIn K es :=
  fun e he => (h e he).mono hK

theorem Answer.LeavesIn.mono {a : Answer} (h : a.LeavesIn H) (hK : H ⊆ K) : a.LeavesIn K :=
  AllIn.mono h hK

theorem Answer.leavesIn_expression {e : Expr} (h : e.LeavesIn H) :
    (Answer.expression e).LeavesIn H :=
  List.forall_mem_singleton.2 h

theorem Answer.leavesIn_draft {d : Draft} : (Answer.draft d).LeavesIn H ↔
    d.objective.expr.LeavesIn H ∧ ∀ c ∈ d.constraints, AllIn H c.expressions := by
  have hone : (Answer.draft d).expressions = d.build.expressions := List.flatMap_singleton _ _
  unfold LeavesIn AllIn
  rw [hone, Problem.expressions, List.forall_mem_cons, List.forall_mem_flatMap]
  rfl

/-- A problem that was handed on holds what it held before. -/
theorem Answer.leavesIn_calls {p : Problem} {calls : List Call} (h : ∀ c ∈ calls, c.problem = p)
    (hp : (Answer.problem p).LeavesIn H) :
    AllIn H ((calls.map Call.problem).flatMap Problem.expressions) := by
  intro e he
  obtain ⟨q, hq, he⟩ := List.mem_flatMap.1 he
  obtain ⟨c, hc, rfl⟩ := List.mem_map.1 hq
  refine hp e (List.mem_flatMap.2 ⟨p, List.mem_cons_self, ?_⟩)
  rw [← h c hc]
  exact he

theorem Answer.leavesIn_labelled {a : Answer} (h : a.LeavesIn H) (n : Nat) :
    (a.labelled.run n).1.LeavesIn H := by
  cases a with
  | expression e => exact List.forall_mem_singleton.2 ((h e List.mem_cons_self).labelled n)
  | entries es => exact Expr.leavesIn_allLabelled (fun x hx => (h x hx).labelled) n
  | constraint c =>
    cases c with
    | zero e => exact List.forall_mem_singleton.2 ((h e List.mem_cons_self).labelled n)
    | nonneg e => exact List.forall_mem_singleton.2 ((h e List.mem_cons_self).labelled n)
    | cone t x =>
      have hx := h x (List.mem_cons_of_mem _ List.mem_cons_self)
      exact List.forall_mem_cons.2 ⟨(h t List.mem_cons_self).labelled n,
        List.forall_mem_singleton.2 (hx.labelled _)⟩
  | _ => exact h

namespace Memory

variable {m : Memory} {i : Nat}

theorem LeavesIn.mono (h : m.LeavesIn H) (hK : H ⊆ K) : m.LeavesIn K :=
  fun a ha => (h a ha).mono hK

theorem LeavesIn.push (h : m.LeavesIn H) {a : Answer} (ha : a.LeavesIn H) :
    LeavesIn H (m.push a) := by
  intro b hb
  rcases Array.mem_push.1 hb with hb | rfl
  · exact h b hb
  · exact ha

theorem LeavesIn.of_getElem? (h : m.LeavesIn H) {a : Answer} (ha : m[i]? = some a) :
    a.LeavesIn H :=
  h a (Array.mem_of_getElem? ha)

theorem LeavesIn.expression (h : m.LeavesIn H) {e : Expr} (he : m.expression? i = some e) :
    e.LeavesIn H := by
  unfold expression? at he
  split at he
  · rename_i ha
    cases he
    exact h.of_getElem? ha e List.mem_cons_self
  · cases he

theorem LeavesIn.entries (h : m.LeavesIn H) {es : List Expr} (hes : m.entries? i = some es) :
    AllIn H es := by
  unfold entries? at hes
  split at hes
  · rename_i ha
    cases hes
    exact h.of_getElem? ha
  · cases hes

theorem LeavesIn.constraint (h : m.LeavesIn H) {c : Constraint} (hc : m.constraint? i = some c) :
    AllIn H c.expressions := by
  unfold constraint? at hc
  split at hc
  · rename_i ha
    cases hc
    exact h.of_getElem? ha
  · cases hc

theorem LeavesIn.draft (h : m.LeavesIn H) {d : Draft} (hd : m.draft? i = some d) :
    (Answer.draft d).LeavesIn H := by
  unfold draft? at hd
  split at hd
  · rename_i ha
    cases hd
    exact h.of_getElem? ha
  · cases hd

theorem LeavesIn.problem (h : m.LeavesIn H) {p : Problem} (hp : m.problem? i = some p) :
    (Answer.problem p).LeavesIn H := by
  unfold problem? at hp
  split at hp
  · rename_i ha
    cases hp
    exact h.of_getElem? ha
  · rename_i d ha
    cases hp
    have hd : (Answer.draft d).LeavesIn H := h.of_getElem? ha
    exact hd
  · cases hp

end Memory

/-! ## Computations that may fail -/

namespace Eval

variable {α β : Type} {P : List Expr → α → Prop} {Q : List Expr → β → Prop}

/-- If the computation succeeds after the leaves `H`, it ends as `P` says of all leaves made by then
and of the result. -/
def Yields (P : List Expr → α → Prop) (H : List Expr) (x : Eval α) : Prop :=
  Supply.Yields (fun K r => ∀ a, r = .ok a → P K a) H x.run

theorem yields_pure {a : α} (h : P H a) : Yields P H (pure a) := by
  rintro b ⟨⟩
  exact h

theorem yields_throw (f : Failure) : Yields P H (throw f) := by
  rintro b ⟨⟩

theorem Yields.bind {x : Eval α} {f : α → Eval β} (hx : Yields P H x)
    (hf : ∀ K a, H ⊆ K → P K a → Yields Q K (f a)) : Yields Q H (x >>= f) := by
  refine Supply.Yields.bind hx fun K r hK hr => ?_
  cases r with
  | ok a => exact hf K a hK (hr a rfl)
  | error fault => exact yields_throw fault

theorem yields_require {o : Option α} (h : ∀ a, o = some a → P H a) :
    Yields P H (require o) := by
  cases o with
  | none => exact yields_throw .badReference
  | some a => exact yields_pure (h a rfl)

theorem yields_settle {aborting : Bool} {r : Except Error α} (h : ∀ a, r = .ok a → P H a) :
    Yields P H (settle aborting r) := by
  cases r with
  | error e => exact yields_throw _
  | ok a => exact yields_pure (h a rfl)

theorem yields_lift {x : Supply α} (h : x.Yields P H) : Yields P H (liftM x) := by
  refine Supply.Yields.bind h fun K a _ ha => ?_
  rintro b ⟨⟩
  exact ha

/-- A leaf is one of the leaves made by then. -/
theorem yields_make (l : Leaf) : Yields Expr.LeavesIn H (liftM (Supply.make l .done)) :=
  yields_lift (Supply.yields_make l)

theorem yields_mapM {f : α → Eval β} {xs : List α} (hQ : ∀ K L b, K ⊆ L → Q K b → Q L b)
    (hf : ∀ K, H ⊆ K → ∀ x ∈ xs, Yields Q K (f x)) :
    Yields (fun K bs => ∀ b ∈ bs, Q K b) H (xs.mapM f) := by
  induction xs generalizing H with
  | nil =>
    rw [List.mapM_nil]
    exact yields_pure fun b hb => nomatch hb
  | cons x xs ih =>
    rw [List.mapM_cons]
    refine (hf H (List.Subset.refl H) x List.mem_cons_self).bind fun K b hK hb => ?_
    refine (ih fun L hL y hy => hf L (List.Subset.trans hK hL) y (List.mem_cons_of_mem x hy)).bind
      fun L bs hL hbs => ?_
    exact yields_pure (List.forall_mem_cons.2 ⟨hQ K L b hL hb, hbs⟩)

theorem yields_any (x : Eval α) : Yields (fun _ _ => True) H x :=
  Supply.yields_iff.2 fun _ _ => trivial

/-- A step that holds an expression. -/
theorem Yields.expression {x : Eval Expr} (hx : Yields Expr.LeavesIn H x) :
    Yields Answer.LeavesIn H (do return .expression (← x)) :=
  hx.bind fun _ _ _ he => yields_pure (Answer.leavesIn_expression he)

/-- A step that holds what is built from a result. -/
theorem Yields.settle {x : Eval α} {g : α → Except Error Expr} {aborting : Bool}
    (hx : Yields P H x) (hg : ∀ K a e, H ⊆ K → P K a → g a = .ok e → e.LeavesIn K) :
    Yields Answer.LeavesIn H
      (do return .expression (← Eval.settle aborting (g (← x)))) :=
  hx.bind fun K a hK ha => (yields_settle fun e => hg K a e hK ha).expression

end Eval

/-! ## One step -/

section

variable {m : Memory}

theorem Operand.yields_eval (hm : m.LeavesIn H) (x : Operand) :
    Eval.Yields Expr.LeavesIn H (x.eval m) := by
  induction x generalizing H with
  | step i => exact Eval.yields_require fun e he => hm.expression he
  | number v => exact Eval.yields_make _
  | integer n => exact Eval.yields_make _
  | child x k ih =>
    refine (ih hm).bind fun K y hK hy => Eval.yields_require fun e he => ?_
    exact hy.of_mem_args (List.mem_of_getElem? he)
  | entry i k =>
    have hes : Eval.Yields AllIn H (Eval.require (m.entries? i)) :=
      Eval.yields_require fun es hes => hm.entries hes
    exact hes.bind fun K es _ h => Eval.yields_require fun e he => h e (List.mem_of_getElem? he)

/-- Both operands have no leaves but `H`. -/
def BothIn (H : List Expr) (p : Expr × Expr) : Prop := p.1.LeavesIn H ∧ p.2.LeavesIn H

theorem Operand.yields_pair {x y : Eval Expr} (hx : Eval.Yields Expr.LeavesIn H x)
    (hy : ∀ K, H ⊆ K → Eval.Yields Expr.LeavesIn K y) :
    Eval.Yields BothIn H (do return (← x, ← y)) :=
  hx.bind fun K _ hK ha => (hy K hK).bind fun _ _ hL hb => Eval.yields_pure ⟨ha.mono hL, hb⟩

theorem Operand.yields_evalBoth (hm : m.LeavesIn H) (x y : Operand) :
    Eval.Yields BothIn H (x.evalBoth m y) := by
  unfold evalBoth
  split
  · exact yields_pair (Eval.yields_make _) fun K _ => Eval.yields_make _
  · refine (yields_eval hm y).bind fun K b hK hb => (Eval.yields_make _).bind fun L a hL ha => ?_
    exact Eval.yields_pure ⟨ha, hb.mono hL⟩
  · exact yields_pair (yields_eval hm x) fun K hK => yields_eval (hm.mono hK) y

theorem Argument.yields_evalAll (hm : m.LeavesIn H) (xs : List Argument) :
    Eval.Yields AllIn H (Argument.evalAll m xs) := by
  have hparts :
      Eval.Yields (fun K ess => ∀ es ∈ ess, AllIn K es) H (xs.mapM (Argument.eval m)) := by
    refine Eval.yields_mapM (fun K L es hL h => h.mono hL) fun K hK x _ => ?_
    cases x with
    | one x =>
      refine (x.yields_eval (hm.mono hK)).bind fun L e _ he => ?_
      exact Eval.yields_pure (List.forall_mem_singleton.2 he)
    | all i => exact Eval.yields_require fun es hes => (hm.mono hK).entries hes
  refine hparts.bind fun K ess _ h => Eval.yields_pure fun e he => ?_
  obtain ⟨es, hes, he⟩ := List.mem_flatten.1 he
  exact h es hes e he

theorem Expr.yields_divide {x : Expr} (hx : x.LeavesIn H) (v : Float) :
    Eval.Yields (fun K r => ∀ e, r = Except.ok e → e.LeavesIn K) H (liftM (x.divide v)) := by
  refine Eval.yields_lift ?_
  unfold divide
  split
  · exact fun e he => nomatch he
  · refine (Supply.yields_make _).bind fun K y hK hy e he => ?_
    exact leavesIn_apply_two .mul (hx.mono hK) hy he

theorem Expr.yields_constant (v : Value) :
    Eval.Yields (fun K r => ∀ e, r = Except.ok e → e.LeavesIn K) H (liftM (constant v)) := by
  refine Eval.yields_lift ((Supply.yields_make _).bind fun K c _ hc e he => ?_)
  -- the sign decides whether there is a constant at all, and which one
  cases hsign : v.sign? with
  | ok s =>
    rw [hsign] at he
    cases he
    exact hc
  | error fault =>
    rw [hsign] at he
    cases he

theorem Eval.yields_draft (hm : m.LeavesIn H) (i : Nat) :
    Yields (fun K d => (Answer.draft d).LeavesIn K) H (require (m.draft? i)) :=
  yields_require fun _ h => hm.draft h

theorem Problem.calls_recording (p : Problem) (report : Except Error Solution)
    (settings : Settings) :
    ∀ c ∈ ((p.solveWith (.recording report) settings).run []).2, c.problem = p := by
  unfold solveWith
  split
  · exact List.forall_mem_singleton.2 rfl
  · exact fun c hc => nomatch hc

theorem Step.yields_reapply (hm : m.LeavesIn H) (x : Operand) :
    Eval.Yields Answer.LeavesIn H ((reapply x).eval m) := by
  refine (x.yields_eval hm).bind fun K a _ ha => ?_
  have hresult : Eval.Yields (fun K r => ∀ e, r = .ok e → e.LeavesIn K) K
      (Eval.require a.reapply) := by
    refine Eval.yields_require fun r hr e he => ?_
    obtain ⟨atom, -, rfl⟩ := Option.map_eq_some_iff.1 hr
    exact Expr.leavesIn_apply atom (fun x hx => ha.of_mem_args hx) he
  exact hresult.settle fun _ _ e _ hr h => hr e h

theorem Step.yields_constrain (hm : m.LeavesIn H) (r : Relation) (x y : Operand) :
    Eval.Yields Answer.LeavesIn H ((constrain r x y).eval m) := by
  refine (x.yields_eval hm).bind fun K a hK ha => ?_
  refine (y.yields_eval (hm.mono hK)).bind fun L b hL hb => ?_
  have hc : Eval.Yields (fun K c => AllIn K c.expressions) L
      (Eval.settle false (r.build a b)) :=
    Eval.yields_settle fun c h => Expr.leavesIn_relation r (ha.mono hL) hb h
  exact hc.bind fun _ _ _ h => Eval.yields_pure h

theorem Step.yields_subjectTo (hm : m.LeavesIn H) (i : Nat) (cs : List Nat) :
    Eval.Yields Answer.LeavesIn H ((subjectTo i cs).eval m) := by
  refine (Eval.yields_draft hm i).bind fun K d hK hd => ?_
  have hcs : Eval.Yields (fun K cs => ∀ c ∈ cs, AllIn K c.expressions) K
      (cs.mapM fun c => Eval.require (m.constraint? c)) :=
    Eval.yields_mapM (fun K L c hL h => h.mono hL) fun L hL c _ =>
      Eval.yields_require fun c h => ((hm.mono hK).mono hL).constraint h
  refine hcs.bind fun L cs hL hcs => Eval.yields_pure (Answer.leavesIn_draft.2 ?_)
  obtain ⟨hobjective, hold⟩ := Answer.leavesIn_draft.1 (hd.mono hL)
  exact ⟨hobjective, List.forall_mem_append.2 ⟨hold, hcs⟩⟩

theorem Step.yields_solve (hm : m.LeavesIn H) (i : Nat) (reply : Reply) (settings : Settings) :
    Eval.Yields Answer.LeavesIn H ((solve i reply settings).eval m) := by
  have hp : Eval.Yields (fun K p => Answer.LeavesIn K (.problem p)) H
      (Eval.require (m.problem? i)) :=
    Eval.yields_require fun p h => hm.problem h
  refine hp.bind fun K p _ h => (Eval.yields_any _).bind fun L report hL _ => ?_
  -- the record of the calls holds the problem that was looked up, whatever the report
  have hcalls := p.calls_recording report settings
  generalize (p.solveWith (.recording report) settings).run [] = r at hcalls ⊢
  obtain ⟨result, calls⟩ := r
  have hexprs := Answer.leavesIn_calls hcalls (h.mono hL)
  cases result with
  | ok s => exact Eval.yields_pure hexprs
  | error e =>
    dsimp only
    split
    case isTrue => exact Eval.yields_throw _
    case isFalse => exact Eval.yields_pure hexprs

/-- The answer to a step has no leaves but those of the answers before it and those that are made
on the way. -/
theorem Step.yields_eval (hm : m.LeavesIn H) (st : Step) :
    Eval.Yields Answer.LeavesIn H (st.eval m) := by
  cases st with
  | declare d => exact (Eval.yields_make _).expression
  | hold x => exact (x.yields_eval hm).expression
  | constant v => exact (Expr.yields_constant v).settle fun _ _ e _ hr h => hr e h
  | columns rows cols values =>
    unfold eval
    dsimp only
    split
    · exact (Eval.yields_make _).expression
    · exact Eval.yields_throw _
  | unary f x => exact (x.yields_eval hm).settle fun _ _ _ _ hx h => Expr.leavesIn_build f hx h
  | binary f x y =>
    refine (x.yields_eval hm).bind fun K a hK ha => ?_
    exact (y.yields_eval (hm.mono hK)).settle fun L b e hL hb h =>
      Expr.leavesIn_buildBinary f (ha.mono hL) hb h
  | operator f x y =>
    exact (x.yields_evalBoth hm y).settle fun _ _ _ _ hxy h =>
      Expr.leavesIn_buildBinary f hxy.1 hxy.2 h
  | divide aborting x v =>
    exact (x.yields_eval hm).bind fun _ _ _ hx =>
      (Expr.yields_divide hx v).settle fun _ _ e _ hr h => hr e h
  | power aborting x p =>
    exact (x.yields_eval hm).settle fun _ _ _ _ hx h => Expr.leavesIn_apply_one _ hx h
  | norm aborting x p =>
    exact (x.yields_eval hm).settle fun _ _ _ _ hx h => Expr.leavesIn_norm hx h
  | reshape x target =>
    exact (x.yields_eval hm).settle fun _ _ _ _ hx h => Expr.leavesIn_apply_one _ hx h
  | index x row col =>
    exact (x.yields_eval hm).settle fun _ _ _ _ hx h => Expr.leavesIn_apply_one _ hx h
  | slice x rows cols =>
    exact (x.yields_eval hm).settle fun _ _ _ _ hx h => Expr.leavesIn_apply_one _ hx h
  | variadic f xs =>
    exact (Argument.yields_evalAll hm xs).settle fun _ _ _ _ hxs h =>
      Expr.leavesIn_buildVariadic hxs h
  | apply atom xs =>
    exact (Argument.yields_evalAll hm xs).settle fun _ _ _ _ hxs h =>
      Expr.leavesIn_apply atom hxs h
  | validate atom xs =>
    exact (Eval.yields_any _).bind fun _ _ _ _ => (Eval.yields_any _).bind fun _ _ _ _ =>
      Eval.yields_pure fun e he => nomatch he
  | reapply x => exact yields_reapply hm x
  | iterate f x n =>
    exact (x.yields_eval hm).settle fun _ _ _ _ hx h => Expr.leavesIn_iterate hx h
  | entries x =>
    exact (x.yields_eval hm).bind fun _ _ _ hx => Eval.yields_pure (Expr.leavesIn_entries hx)
  | inspect x =>
    exact (x.yields_eval hm).bind fun _ _ _ he =>
      Eval.yields_pure (List.forall_mem_singleton.2 he)
  | sameNode x y | sameAtom x y =>
    exact (Eval.yields_any _).bind fun _ _ _ _ => (Eval.yields_any _).bind fun _ _ _ _ =>
      Eval.yields_pure fun e he => nomatch he
  | constrain r x y => exact yields_constrain hm r x y
  | objective sense x =>
    exact (x.yields_eval hm).bind fun _ _ _ he =>
      Eval.yields_pure (List.forall_mem_singleton.2 he)
  | draft sense x =>
    refine (x.yields_eval hm).bind fun K a _ ha => Eval.yields_pure ?_
    cases sense
    all_goals exact List.forall_mem_singleton.2 ha
  | subjectTo i cs => exact yields_subjectTo hm i cs
  | build i =>
    exact (Eval.yields_draft hm i).bind fun _ _ _ h => Eval.yields_pure h
  | solve i reply settings => exact yields_solve hm i reply settings
  | read aborting i x =>
    exact (Eval.yields_any _).bind fun _ _ _ _ => (Eval.yields_any _).bind fun _ _ _ _ =>
      (Eval.yields_any _).bind fun _ _ _ _ => Eval.yields_pure fun e he => nomatch he
  | readValue i x =>
    exact (Eval.yields_any _).bind fun _ _ _ _ => (Eval.yields_any _).bind fun _ _ _ _ =>
      (Eval.yields_any _).bind fun _ _ _ _ => Eval.yields_pure fun e he => nomatch he

end

end

end DisciplinedConvex
