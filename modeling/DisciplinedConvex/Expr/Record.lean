import DisciplinedConvex.Expr.Inference
import DisciplinedConvex.Expr.Text
import DisciplinedConvex.Text.Quoted

/-! # Records

An expression in one line for diagnosis: its printed form in quotation marks, and its shape, sign
and curvature.
-/

namespace DisciplinedConvex
set_option autoImplicit false

namespace Record

/-- A record of named fields. -/
def fields (name : String) (parts : List (String × String)) : String :=
  name ++ " \x7b " ++ ", ".intercalate (parts.map fun (key, value) => key ++ ": " ++ value) ++
    " \x7d"

def ofShape (s : Shape) : String :=
  fields "Shape" [("rows", toString s.rows), ("cols", toString s.cols)]

def ofSign : Sign → String
  | .positive => "Positive"
  | .negative => "Negative"
  | .zero => "Zero"
  | .unknown => "Unknown"

def ofCurvature : Curvature → String
  | .constant => "Constant"
  | .affine => "Affine"
  | .convex => "Convex"
  | .concave => "Concave"
  | .unknown => "Unknown"

end Record

def Expr.record (e : Expr) : String :=
  Record.fields "Expr"
    [("name", Text.quoted e.text), ("shape", Record.ofShape e.shape),
      ("sign", Record.ofSign e.sign), ("curvature", Record.ofCurvature e.curvature)]

end DisciplinedConvex
