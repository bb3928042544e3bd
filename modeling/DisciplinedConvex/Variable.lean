import DisciplinedConvex.Shape
import DisciplinedConvex.Sign

/-! # Decision variables

`Declaration` is what is said of a variable when it is made, and `Variable` the leaf with its id.
-/

namespace DisciplinedConvex
set_option autoImplicit false

/-- How a variable is declared. -/
structure Declaration where
  shape : Shape := .scalar
  name? : Option String := none
  sign : Sign := .unknown
  deriving DecidableEq

namespace Declaration

def named (d : Declaration) (name : String) : Declaration := { d with name? := some name }

/-- The last declared sign counts. -/
def signed (d : Declaration) (sign : Sign) : Declaration := { d with sign := sign }

def nonneg (d : Declaration) : Declaration := d.signed .positive

def nonpos (d : Declaration) : Declaration := d.signed .negative

end Declaration

/-- A decision variable. -/
structure Variable where
  id : Nat
  declaration : Declaration
  deriving DecidableEq

def Variable.shape (v : Variable) : Shape := v.declaration.shape

/-- The declared name, or one made of the id. -/
def Variable.name (v : Variable) : String :=
  v.declaration.name?.getD ("var" ++ toString v.id)

end DisciplinedConvex
