import Mathlib.Data.List.Nodup
import DisciplinedConvex.Session.Answer
import DisciplinedConvex.Proofs.Reach

/-! # Leaves that a computation makes

* `Supply.made` lists the leaves that a computation makes, in the order in which it makes them. The
  ids are the numbers from the next id on (`Supply.leafIds_made`).
* `Supply.Yields` says something of the result and of all leaves made by then, those before the
  computation among them. Of computations one after another it is shown one by one
  (`Supply.Yields.bind`).
* `Expr.LeavesIn` says that an expression has no leaves but the given ones. The builders keep it.
-/

namespace DisciplinedConvex
set_option autoImplicit false

namespace Supply

section

variable {α β : Type} {P Q : List Expr → α → Prop} {H : List Expr}

/-- The leaves that are made if the next id is `n`, those of no further use among them. -/
def made (n : Nat) : Supply α → List Expr
  | done _ => []
  | make l next => l.withId n :: (next (l.withId n)).made (n + 1)

@[simp] theorem leafId?_withId (n : Nat) (l : Leaf) : (l.withId n).leafId? = some n := by
  cases l <;> rfl

theorem snd_run (n : Nat) (x : Supply α) : (x.run n).2 = n + (x.made n).length := by
  induction x generalizing n with
  | done a => rfl
  | make l next ih =>
    rw [run, made, ih, List.length_cons]
    omega

theorem leafIds_made (n : Nat) (x : Supply α) :
    (x.made n).map Expr.leafId? = (List.range' n (x.made n).length).map some := by
  induction x generalizing n with
  | done a => rfl
  | make l next ih =>
    rw [made, List.map_cons, ih, leafId?_withId, List.length_cons, List.range'_succ, List.map_cons]

/-- After the leaves `H`, with ids from zero on, the computation ends as `P` says of all leaves made
by then and of the result. -/
def Yields (P : List Expr → α → Prop) (H : List Expr) : Supply α → Prop
  | done a => P H a
  | make l next =>
    (next (l.withId H.length)).Yields P (H ++ [l.withId H.length])

theorem yields_iff {x : Supply α} :
    x.Yields P H ↔ P (H ++ x.made H.length) (x.run H.length).1 := by
  induction x generalizing H with
  | done a => rw [Yields, made, run, List.append_nil]
  | make l next ih =>
    rw [Yields, ih, List.length_append, made, run, List.append_assoc]
    rfl

theorem Yields.imp {x : Supply α} (hx : x.Yields P H) (h : ∀ K a, H ⊆ K → P K a → Q K a) :
    x.Yields Q H := by
  induction x generalizing H with
  | done a => exact h H a (List.Subset.refl H) hx
  | make l next ih =>
    exact ih _ hx fun K a hK => h K a (List.Subset.trans (List.subset_append_left H _) hK)

theorem yields_bind {Q : List Expr → β → Prop} {x : Supply α} {f : α → Supply β} :
    (x >>= f).Yields Q H ↔ x.Yields (fun K a => (f a).Yields Q K) H := by
  induction x generalizing H with
  | done a => rfl
  | make l next ih => exact ih _

theorem Yields.bind {Q : List Expr → β → Prop} {x : Supply α} {f : α → Supply β}
    (hx : x.Yields P H) (hf : ∀ K a, H ⊆ K → P K a → (f a).Yields Q K) : (x >>= f).Yields Q H :=
  yields_bind.2 (hx.imp hf)

end

instance : LawfulMonad Supply := LawfulMonad.mk' Supply
  (fun x => by
    induction x with
    | done a => rfl
    | make l next ih => exact congrArg (make l) (funext ih))
  (fun _ _ => rfl)
  (fun x f g => by
    induction x with
    | done a => rfl
    | make l next ih => exact congrArg (make l) (funext ih))

end Supply

/-! ## Expressions without other leaves -/

namespace Expr

/-- Every leaf of the expression is one of `H`. -/
def LeavesIn (H : List Expr) (e : Expr) : Prop := e.Everywhere fun y => y.isLeaf → y ∈ H

section LeavesIn

variable {H K : List Expr} {x y e : Expr}

theorem leavesIn_iff_reaches : e.LeavesIn H ↔ ∀ y, e.Reaches y → y.isLeaf → y ∈ H :=
  forall_congr' fun _ => imp_congr_left reaches_iff.symm

theorem LeavesIn.mono (h : e.LeavesIn H) (hK : H ⊆ K) : e.LeavesIn K :=
  fun y hy hleaf => hK (h y hy hleaf)

theorem LeavesIn.of_mem_args (h : e.LeavesIn H) (hx : x ∈ e.args) : x.LeavesIn H :=
  (everywhere_iff.1 h).2 x hx

theorem leavesIn_withId {n : Nat} {l : Leaf} (h : l.withId n ∈ H) : (l.withId n).LeavesIn H := by
  cases l with
  | var d => exact everywhere_var.2 fun _ => h
  | const v => exact everywhere_const.2 fun _ => h

theorem leavesIn_of_args (ha : e.args ≠ []) (h : ∀ x ∈ e.args, x.LeavesIn H) : e.LeavesIn H := by
  refine everywhere_iff.2 ⟨fun hleaf => ?_, h⟩
  cases e
  case var | const => exact absurd rfl ha
  all_goals cases hleaf

theorem leavesIn_of_args_eq (ha : e.args = [x]) (hx : x.LeavesIn H) : e.LeavesIn H :=
  leavesIn_of_args (by simp [ha]) (by simpa [ha] using hx)

end LeavesIn

end Expr

/-- A leaf is one of the leaves made by then. -/
theorem Supply.yields_make {H : List Expr} (l : Leaf) :
    (Supply.make l .done).Yields Expr.LeavesIn H :=
  Expr.leavesIn_withId (List.mem_append_right H List.mem_cons_self)

/-! ## The builders -/

namespace Expr

section

variable {H : List Expr} {x y e : Expr}

theorem leavesIn_apply (atom : Atom) {args : List Expr} (hargs : ∀ x ∈ args, x.LeavesIn H)
    (h : apply atom args = .ok e) : e.LeavesIn H := by
  obtain ⟨hatom, rfl, -⟩ := of_apply_eq_ok h
  refine leavesIn_of_args ?_ hargs
  cases e
  case var | const => cases hatom
  all_goals exact List.cons_ne_nil _ _

theorem leavesIn_apply_one (op : Unary) (hx : x.LeavesIn H) (h : apply (.unary op) [x] = .ok e) :
    e.LeavesIn H :=
  leavesIn_apply _ (List.forall_mem_singleton.2 hx) h

theorem leavesIn_apply_two (op : Binary) (hx : x.LeavesIn H) (hy : y.LeavesIn H)
    (h : apply (.binary op) [x, y] = .ok e) : e.LeavesIn H :=
  leavesIn_apply _ (List.forall_mem_cons.2 ⟨hx, List.forall_mem_singleton.2 hy⟩) h

theorem leavesIn_build (f : UnaryBuilder) (hx : x.LeavesIn H) (h : f.build x = .ok e) :
    e.LeavesIn H :=
  leavesIn_of_args_eq (args_build h) hx

theorem leavesIn_iterate {f : UnaryBuilder} {n : Nat} (hx : x.LeavesIn H)
    (h : f.iterate n x = .ok e) : e.LeavesIn H := by
  induction n generalizing x with
  | zero =>
    cases h
    exact hx
  | succ n ih =>
    unfold UnaryBuilder.iterate at h
    cases hb : f.build x with
    | error fault =>
      rw [hb] at h
      cases h
    | ok y =>
      rw [hb] at h
      exact ih (leavesIn_build f hx hb) h

theorem leavesIn_entries (hx : x.LeavesIn H) : ∀ e ∈ x.entries, e.LeavesIn H :=
  fun _ he => leavesIn_of_args_eq (isValid_entry he).2 hx

theorem leavesIn_norm {p : Float} (hx : x.LeavesIn H) (h : x.norm p = .ok e) : e.LeavesIn H := by
  unfold norm at h
  split at h
  · exact leavesIn_build .norm1 hx h
  · split at h
    · exact leavesIn_build .norm2 hx h
    · split at h
      · exact leavesIn_build .normInf hx h
      · cases h

theorem leavesIn_sub (hx : x.LeavesIn H) (hy : y.LeavesIn H) (h : x.sub y = .ok e) :
    e.LeavesIn H :=
  leavesIn_apply_two .add hx (leavesIn_build .neg hy rfl) h

theorem leavesIn_buildBinary (f : BinaryBuilder) (hx : x.LeavesIn H) (hy : y.LeavesIn H)
    (h : f.build x y = .ok e) : e.LeavesIn H := by
  have hxy : ∀ z ∈ [x, y], z.LeavesIn H :=
    List.forall_mem_cons.2 ⟨hx, List.forall_mem_singleton.2 hy⟩
  cases f with
  | add => exact leavesIn_apply_two .add hx hy h
  | sub => exact leavesIn_sub hx hy h
  | mul => exact leavesIn_apply_two .mul hx hy h
  | matmul => exact leavesIn_apply_two .matmul hx hy h
  | dot => exact leavesIn_apply_two .matmul (leavesIn_build .transpose hx rfl) hy h
  | quadForm => exact leavesIn_apply_two .quadForm hx hy h
  | quadOverLin => exact leavesIn_apply_two .quadOverLin hx hy h
  | maximum => exact leavesIn_apply (.variadic .maximum) hxy h
  | minimum => exact leavesIn_apply (.variadic .minimum) hxy h

theorem leavesIn_buildVariadic {f : Variadic} {xs : List Expr} (hxs : ∀ x ∈ xs, x.LeavesIn H)
    (h : f.build xs = .ok e) : e.LeavesIn H := by
  cases f with
  | vstack => exact leavesIn_apply (.variadic .vstack) hxs h
  | hstack => exact leavesIn_apply (.variadic .hstack) hxs h
  | maximum => exact leavesIn_apply (.variadic .maximum) hxs h
  | minimum => exact leavesIn_apply (.variadic .minimum) hxs h

theorem leavesIn_relation (r : Relation) {c : Constraint} (hx : x.LeavesIn H) (hy : y.LeavesIn H)
    (h : r.build x y = .ok c) : ∀ e ∈ c.expressions, e.LeavesIn H := by
  cases r with
  | eq =>
    obtain ⟨e, he, rfl⟩ := Relation.of_build h
    exact List.forall_mem_singleton.2 (leavesIn_sub hx hy he)
  | leq =>
    obtain ⟨e, he, rfl⟩ := Relation.of_build h
    exact List.forall_mem_singleton.2 (leavesIn_sub hy hx he)
  | geq =>
    obtain ⟨e, he, rfl⟩ := Relation.of_build h
    exact List.forall_mem_singleton.2 (leavesIn_sub hx hy he)
  | soc =>
    obtain ⟨-, rfl⟩ := Relation.of_build h
    exact List.forall_mem_cons.2 ⟨hx, List.forall_mem_singleton.2 hy⟩

/-! ## Labels -/

theorem leavesIn_allLabelled {xs : List Expr}
    (h : ∀ x ∈ xs, ∀ n, (x.labelled.run n).1.LeavesIn H) (n : Nat) :
    ∀ y ∈ ((allLabelled xs).run n).1, y.LeavesIn H := by
  induction xs generalizing n with
  | nil => exact fun y hy => nomatch hy
  | cons x xs ih =>
    obtain ⟨hx, hxs⟩ := List.forall_mem_cons.1 h
    exact List.forall_mem_cons.2 ⟨hx n, ih hxs _⟩

theorem LeavesIn.labelled (h : e.LeavesIn H) (n : Nat) : (e.labelled.run n).1.LeavesIn H := by
  induction e generalizing n with
  | var v => exact h
  | const id v => exact h
  | unary label op x ih =>
    cases label with
    | some k => exact h
    | none => exact leavesIn_of_args_eq rfl (ih (h.of_mem_args List.mem_cons_self) n)
  | binary label op x y ihx ihy =>
    cases label with
    | some k => exact h
    | none =>
      have hx := h.of_mem_args List.mem_cons_self
      have hy := h.of_mem_args (List.mem_cons_of_mem _ List.mem_cons_self)
      exact leavesIn_of_args (List.cons_ne_nil _ _)
        (List.forall_mem_cons.2 ⟨ihx hx n, List.forall_mem_singleton.2 (ihy hy _)⟩)
  | variadic label op x xs ihx ihxs =>
    cases label with
    | some k => exact h
    | none =>
      have hx := h.of_mem_args List.mem_cons_self
      refine leavesIn_of_args (List.cons_ne_nil _ _) (List.forall_mem_cons.2 ⟨ihx hx n, ?_⟩)
      exact leavesIn_allLabelled
        (fun y hy => ihxs y hy (h.of_mem_args (List.mem_cons_of_mem _ hy))) _

end

end Expr

end DisciplinedConvex
