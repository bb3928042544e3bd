import DisciplinedConvex.Decimal.Shortest

/-! # Number text

* `Decimal.text` writes a decimal in positional notation, never with an exponent.
* `Number.text` writes a binary64 number with the fewest digits that read back. A whole number has
  no point, zero keeps its sign and NaN has none.
* `Number.isEvenInteger` is decided on the exact value.
-/

namespace DisciplinedConvex
set_option autoImplicit false

namespace Decimal

/-- The digits with the point where the exponent puts it. -/
def text (d : Decimal) : String :=
  let digits := Nat.toDigits 10 d.digits
  match d.exponent with
  | .ofNat k => .ofList (digits ++ List.replicate k '0')
  | .negSucc k =>
    let places := k + 1
    let padded := List.replicate (places + 1 - digits.length) '0' ++ digits
    let whole := padded.length - places
    .ofList (padded.take whole ++ '.' :: padded.drop whole)

end Decimal

namespace Number

/-- A number with the fewest digits that read back. -/
def text (v : Float) : String :=
  match v.toModel.unpack with
  | .notANumber => "NaN"
  | .infinity s => mark s ++ "inf"
  | .zero s => mark s ++ "0"
  | .finite s m e _ => mark s ++ (Decimal.shortest m e).text
where
  mark : Float.Model.UnpackedFloat.Sign → String
    | .positive => ""
    | .negative => "-"

/-- The number `m * 2 ^ e` is an even integer, zero aside. -/
def isEvenInteger (v : Float) : Bool :=
  match v.toModel.unpack with
  | .finite _ m e _ => m * Nat.pow 2 e.toNat % Nat.pow 2 (1 + (-e).toNat) == 0
  | _ => false

end Number

end DisciplinedConvex
