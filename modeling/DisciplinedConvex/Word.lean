/-! # Arithmetic on words

Dimensions are 64-bit words. A product or a sum of dimensions that no word can hold is not wrapped
around: it ends the computation.

* `Word.fit` puts a number into a word, or ends in an `Overflow`.
* `Word.mul`, `Word.add` and `Word.sum` have the true product or sum as their result, if any
  (`Word.mul_eq_ok_iff`).
-/

namespace DisciplinedConvex
set_option autoImplicit false

/-- An operation whose result no word can hold. -/
inductive Overflow where
  | multiply
  | add
  deriving DecidableEq, Repr

def Overflow.message : Overflow → String
  | multiply => "attempt to multiply with overflow"
  | add => "attempt to add with overflow"

namespace Word

def fit (fault : Overflow) (n : Nat) : Except Overflow UInt64 :=
  if n < UInt64.size then .ok (.ofNat n) else .error fault

def mul (a b : UInt64) : Except Overflow UInt64 := fit .multiply (a.toNat * b.toNat)

def add (a b : UInt64) : Except Overflow UInt64 := fit .add (a.toNat + b.toNat)

/-- Words added up one after another. -/
def sum (ws : List UInt64) : Except Overflow UInt64 := ws.foldlM add 0

section

variable {fault other : Overflow} {n : Nat} {a b w : UInt64}

theorem fit_eq_ok_iff : fit fault n = .ok w ↔ n = w.toNat := by
  unfold fit
  split
  case isTrue h =>
    rw [Except.ok.injEq, ← UInt64.toNat_inj, UInt64.toNat_ofNat_of_lt' h]
  case isFalse h => exact iff_of_false nofun fun heq => h (heq ▸ w.toNat_lt)

theorem fit_eq_error_iff : fit fault n = .error other ↔ UInt64.size ≤ n ∧ other = fault := by
  unfold fit
  split
  case isTrue h => exact iff_of_false nofun fun hsize => Nat.not_le_of_lt h hsize.1
  case isFalse h =>
    rw [Except.error.injEq, eq_comm, and_iff_right (Nat.le_of_not_lt h)]

theorem mul_eq_ok_iff : mul a b = .ok w ↔ a.toNat * b.toNat = w.toNat := fit_eq_ok_iff

theorem mul_eq_error_iff :
    mul a b = .error fault ↔ UInt64.size ≤ a.toNat * b.toNat ∧ fault = .multiply :=
  fit_eq_error_iff

end

end Word

end DisciplinedConvex
