import DisciplinedConvex.Proofs.Built
import DisciplinedConvex.Proofs.Tighten.Order

/-! # The same builder calls on tighter leaves

* `Expr.Tightens` relates what the same calls of the builders make of the same leaves, where the
  declared signs of the first are lower or equal.
* `Expr.Mirrors` says the same of the finished trees, and `Expr.Tightens.mirrors` is the step from
  calls to trees: no builder looks at a sign. A call that is accepted is accepted on tighter leaves
  (`Expr.exists_apply_of_tightens`).
* `Expr.places` lists the corresponding nodes of two such trees.
-/

namespace DisciplinedConvex
set_option autoImplicit false

namespace Expr

inductive Tightens : Expr → Expr → Prop where
  | var (id : Nat) (d : Declaration) {s : Sign} (h : s ≤ d.sign) :
    Tightens (var ⟨id, d.signed s⟩) (var ⟨id, d⟩)
  | const (id : Nat) (v : Value) : Tightens (const id v) (const id v)
  | apply {atom : Atom} {pairs : List (Expr × Expr)} {e' e : Expr}
    (hpairs : ∀ q ∈ pairs, Tightens q.1 q.2) (h' : apply atom (pairs.map Prod.fst) = .ok e')
    (h : apply atom (pairs.map Prod.snd) = .ok e) : Tightens e' e
  | unary {f : UnaryBuilder} {x' x e' e : Expr} (hx : Tightens x' x) (h' : f.build x' = .ok e')
    (h : f.build x = .ok e) : Tightens e' e
  | entry {x' x e' e : Expr} (k : Nat) (hx : Tightens x' x) (h' : x'.entries[k]? = some e')
    (h : x.entries[k]? = some e) : Tightens e' e
  | held {e' e : Expr} (h : Tightens e' e) (label' label : Option Nat) :
    Tightens (e'.withLabel label') (e.withLabel label)

/-- The trees are the same but for labels and lower signs of variables. -/
inductive Mirrors : Expr → Expr → Prop where
  | var (id : Nat) (d : Declaration) {s : Sign} (h : s ≤ d.sign) :
    Mirrors (var ⟨id, d.signed s⟩) (var ⟨id, d⟩)
  | const (id : Nat) (v : Value) : Mirrors (const id v) (const id v)
  | unary (label' label : Option Nat) {op : Unary} {x' x : Expr}
    (hp : op.checkParameter = .ok ()) (hx : Mirrors x' x) :
    Mirrors (unary label' op x') (unary label op x)
  | binary (label' label : Option Nat) {op : Binary} {x' x y' y : Expr} (hx : Mirrors x' x)
    (hy : Mirrors y' y) : Mirrors (binary label' op x' y') (binary label op x y)
  | variadic (label' label : Option Nat) {op : Variadic} {x' x : Expr} {pairs : List (Expr × Expr)}
    (hx : Mirrors x' x) (hpairs : ∀ q ∈ pairs, Mirrors q.1 q.2) :
    Mirrors (variadic label' op x' (pairs.map Prod.fst)) (variadic label op x (pairs.map Prod.snd))

/-! ## From calls to trees -/

/-- The three kinds of trees that `apply` makes. -/
theorem apply_cases {atom : Atom} {args : List Expr} {e : Expr} (h : apply atom args = .ok e) :
    (∃ op x, atom = .unary op ∧ args = [x] ∧ e = unary none op x ∧
      op.checkParameter = .ok ()) ∨
    (∃ op x y, atom = .binary op ∧ args = [x, y] ∧ e = binary none op x y) ∨
    ∃ op x xs, atom = .variadic op ∧ args = x :: xs ∧ e = variadic none op x xs := by
  have hvalid := isValid_of_apply_eq_ok h
  have hmap : ∀ {x : Except Error Shape} {y : Expr}, (x.map fun _ => y) = .ok e → e = y := by
    intro x y hxy
    cases x <;> cases hxy
    rfl
  unfold apply at h
  split at h
  · obtain rfl := hmap h
    exact .inl ⟨_, _, rfl, rfl, rfl, (isValid_unary.1 hvalid).1⟩
  · obtain rfl := hmap h
    exact .inr (.inl ⟨_, _, _, rfl, rfl, rfl⟩)
  · obtain rfl := hmap h
    exact .inr (.inr ⟨_, _, _, rfl, rfl, rfl⟩)
  · cases h

/-- A unary builder applies the same atom to arguments of the same shape. -/
theorem build_cases {f : UnaryBuilder} {x' x e' e : Expr} (hshape : x'.shape = x.shape)
    (h' : f.build x' = .ok e') (h : f.build x = .ok e) :
    ∃ op, e' = unary none op x' ∧ e = unary none op x ∧ op.checkParameter = .ok () := by
  have happly : ∀ {op : Unary} {y d : Expr}, apply (.unary op) [y] = .ok d →
      d = unary none op y ∧ op.checkParameter = .ok () := by
    intro op y d hd
    rcases apply_cases hd with ⟨_, _, hop, hy, rfl, hp⟩ | ⟨_, _, _, hop, -⟩ | ⟨_, _, _, hop, -⟩
    · cases hop
      cases hy
      exact ⟨rfl, hp⟩
    · cases hop
    · cases hop
  cases f
  case trace => exact ⟨.trace, (happly h').1, (happly h).1, rfl⟩
  case diag => exact ⟨.diag, (happly h').1, (happly h).1, rfl⟩
  case flatten =>
    cases h
    cases h'
    exact ⟨_, by rw [flatten, hshape], rfl, rfl⟩
  all_goals
    cases h
    cases h'
    exact ⟨_, rfl, rfl, rfl⟩

/-- The entries of an expression depend on its shape alone. -/
theorem entries_eq_map (x : Expr) : x.entries =
    ((List.range x.shape.cols.toNat).flatMap fun j => (List.range x.shape.rows.toNat).map fun i =>
      Selection.element (.ofNat i) (.ofNat j)).map fun s => unary none (.index s) x := by
  rw [entries, List.map_flatMap]
  simp only [List.map_map, Function.comp_def]

theorem Mirrors.shape_eq {e' e : Expr} (h : Mirrors e' e) : e'.shape = e.shape := by
  induction h with
  | var id d h => rfl
  | const id v => rfl
  | unary label' label hp hx ih => rw [shape, shape, ih]
  | binary label' label hx hy ihx ihy => rw [shape, shape, ihx, ihy]
  | variadic label' label hx hpairs ihx ihpairs =>
    rw [shape, shape, shapes_eq_map, shapes_eq_map, List.map_map, List.map_map, ihx]
    exact congrArg _ (List.map_congr_left ihpairs)

theorem Mirrors.withLabel {e' e : Expr} (h : Mirrors e' e) (label' label : Option Nat) :
    Mirrors (e'.withLabel label') (e.withLabel label) := by
  cases h with
  | var id d h => exact .var id d h
  | const id v => exact .const id v
  | unary _ _ hp hx => exact .unary _ _ hp hx
  | binary _ _ hx hy => exact .binary _ _ hx hy
  | variadic _ _ hx hpairs => exact .variadic _ _ hx hpairs

theorem Mirrors.of_apply {atom : Atom} {pairs : List (Expr × Expr)} {e' e : Expr}
    (hpairs : ∀ q ∈ pairs, Mirrors q.1 q.2) (h' : apply atom (pairs.map Prod.fst) = .ok e')
    (h : apply atom (pairs.map Prod.snd) = .ok e) : Mirrors e' e := by
  rcases apply_cases h with ⟨op, x, rfl, hargs, rfl, hp⟩ | ⟨op, x, y, rfl, hargs, rfl⟩ |
    ⟨op, x, xs, rfl, hargs, rfl⟩
  · obtain ⟨⟨x', _⟩, rest, rfl, rfl, hrest⟩ := List.map_eq_cons_iff.1 hargs
    obtain rfl := List.map_eq_nil_iff.1 hrest
    rcases apply_cases h' with ⟨_, _, hop, hx, rfl, -⟩ | ⟨_, _, _, hop, -⟩ | ⟨_, _, _, hop, -⟩
    · cases hop
      cases hx
      exact .unary _ _ hp (hpairs _ List.mem_cons_self)
    · cases hop
    · cases hop
  · obtain ⟨⟨x', _⟩, rest, rfl, rfl, htail⟩ := List.map_eq_cons_iff.1 hargs
    obtain ⟨⟨y', _⟩, rest, rfl, rfl, hrest⟩ := List.map_eq_cons_iff.1 htail
    obtain rfl := List.map_eq_nil_iff.1 hrest
    rcases apply_cases h' with ⟨_, _, hop, -⟩ | ⟨_, _, _, hop, hx, rfl⟩ | ⟨_, _, _, hop, -⟩
    · cases hop
    · cases hop
      cases hx
      exact .binary _ _ (hpairs _ List.mem_cons_self)
        (hpairs _ (List.mem_cons_of_mem _ List.mem_cons_self))
    · cases hop
  · obtain ⟨⟨x', _⟩, rest, rfl, rfl, rfl⟩ := List.map_eq_cons_iff.1 hargs
    rcases apply_cases h' with ⟨_, _, hop, -⟩ | ⟨_, _, _, hop, -⟩ | ⟨_, _, _, hop, hx, rfl⟩
    · cases hop
    · cases hop
    · cases hop
      cases hx
      exact .variadic _ _ (hpairs _ List.mem_cons_self)
        fun q hq => hpairs q (List.mem_cons_of_mem _ hq)

/-- No builder looks at a sign. -/
theorem Tightens.mirrors {e' e : Expr} (h : Tightens e' e) : Mirrors e' e := by
  induction h with
  | var id d h => exact .var id d h
  | const id v => exact .const id v
  | apply _ h' h ih => exact .of_apply ih h' h
  | unary hx h' h ih =>
    obtain ⟨op, rfl, rfl, hp⟩ := build_cases ih.shape_eq h' h
    exact .unary _ _ hp ih
  | entry k hx h' h ih =>
    rw [entries_eq_map, List.getElem?_map, ih.shape_eq, Option.map_eq_some_iff] at h'
    rw [entries_eq_map, List.getElem?_map, Option.map_eq_some_iff] at h
    obtain ⟨s, hs, rfl⟩ := h
    obtain ⟨s', hs', rfl⟩ := h'
    cases hs.symm.trans hs'
    exact .unary _ _ rfl ih
  | held h label' label ih => exact ih.withLabel label' label

/-- What is accepted is accepted of tighter arguments too. -/
theorem exists_apply_of_tightens {atom : Atom} {pairs : List (Expr × Expr)} {e : Expr}
    (hpairs : ∀ q ∈ pairs, Tightens q.1 q.2) (h : apply atom (pairs.map Prod.snd) = .ok e) :
    ∃ e', apply atom (pairs.map Prod.fst) = .ok e' ∧ Tightens e' e := by
  have hshapes : (pairs.map Prod.fst).map shape = (pairs.map Prod.snd).map shape := by
    rw [List.map_map, List.map_map]
    exact List.map_congr_left fun q hq => (hpairs q hq).mirrors.shape_eq
  obtain ⟨s, hs⟩ := (of_apply_eq_ok h).2.2
  rw [validate, ← hshapes] at hs
  suffices happly : ∃ e', apply atom (pairs.map Prod.fst) = .ok e' by
    obtain ⟨e', h'⟩ := happly
    exact ⟨e', h', .apply hpairs h' h⟩
  rcases apply_cases h with ⟨op, x, rfl, hargs, -⟩ | ⟨op, x, y, rfl, hargs, -⟩ |
    ⟨op, x, xs, rfl, hargs, -⟩
  · obtain ⟨q, rest, rfl, -, hrest⟩ := List.map_eq_cons_iff.1 hargs
    obtain rfl := List.map_eq_nil_iff.1 hrest
    exact ⟨unary none op q.1, congrArg (Except.map _) hs⟩
  · obtain ⟨q, rest, rfl, -, htail⟩ := List.map_eq_cons_iff.1 hargs
    obtain ⟨r, rest, rfl, -, hrest⟩ := List.map_eq_cons_iff.1 htail
    obtain rfl := List.map_eq_nil_iff.1 hrest
    exact ⟨binary none op q.1 r.1, congrArg (Except.map _) hs⟩
  · obtain ⟨q, rest, rfl, -, -⟩ := List.map_eq_cons_iff.1 hargs
    exact ⟨variadic none op q.1 (rest.map Prod.fst), congrArg (Except.map _) hs⟩

/-! ## Corresponding nodes -/

def places (e' e : Expr) : List (Expr × Expr) := e'.nodes.zip e.nodes

theorem Mirrors.length_nodes {e' e : Expr} (h : Mirrors e' e) :
    e'.nodes.length = e.nodes.length := by
  induction h with
  | var id d h => rfl
  | const id v => rfl
  | unary label' label hp hx ih => rw [nodes, nodes, List.length_cons, List.length_cons, ih]
  | binary label' label hx hy ihx ihy =>
    simp only [nodes, List.length_cons, List.length_append, ihx, ihy]
  | variadic label' label hx hpairs ihx ihpairs =>
    simp only [nodes, nodesOf_eq_flatMap, List.length_cons, List.length_append, ihx,
      List.flatMap_map, List.length_flatMap]
    rw [List.map_congr_left ihpairs]

theorem places_unary (label' label : Option Nat) (op' op : Unary) (x' x : Expr) :
    places (unary label' op' x') (unary label op x) =
      (unary label' op' x', unary label op x) :: places x' x := rfl

theorem places_binary (label' label : Option Nat) (op' op : Binary) {x' x : Expr} (y' y : Expr)
    (hx : Mirrors x' x) :
    places (binary label' op' x' y') (binary label op x y) =
      (binary label' op' x' y', binary label op x y) :: (places x' x ++ places y' y) := by
  rw [places, nodes, nodes, List.zip_cons_cons, List.zip_append hx.length_nodes, places, places]

theorem zip_nodes {pairs : List (Expr × Expr)} (hpairs : ∀ q ∈ pairs, Mirrors q.1 q.2) :
    ((pairs.map Prod.fst).flatMap nodes).zip ((pairs.map Prod.snd).flatMap nodes) =
      pairs.flatMap fun q => places q.1 q.2 := by
  induction pairs with
  | nil => rfl
  | cons q pairs ih =>
    have hq := (hpairs q List.mem_cons_self).length_nodes
    simp only [List.map_cons, List.flatMap_cons]
    rw [List.zip_append hq, ih fun r hr => hpairs r (List.mem_cons_of_mem q hr), places]

theorem places_variadic (label' label : Option Nat) (op' op : Variadic) {x' x : Expr}
    {pairs : List (Expr × Expr)} (hx : Mirrors x' x) (hpairs : ∀ q ∈ pairs, Mirrors q.1 q.2) :
    places (variadic label' op' x' (pairs.map Prod.fst))
        (variadic label op x (pairs.map Prod.snd)) =
      (variadic label' op' x' (pairs.map Prod.fst), variadic label op x (pairs.map Prod.snd)) ::
        (places x' x ++ pairs.flatMap fun q => places q.1 q.2) := by
  rw [places, nodes, nodes, List.zip_cons_cons, List.zip_append hx.length_nodes,
    nodesOf_eq_flatMap, nodesOf_eq_flatMap, zip_nodes hpairs, places]

end Expr

end DisciplinedConvex
