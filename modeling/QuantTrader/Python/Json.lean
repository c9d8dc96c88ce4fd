import Mathlib.Data.Int.Notation
import Mathlib.Data.Nat.Notation

/-! # Decoded JSON values

The values that Python's decoder makes of a JSON text, with the two ways of reading a
field of one and the exceptions these raise on a value of another type.
-/

namespace QuantTrader.Python

/-- A text by its code points; a decoded text may have lone surrogates. -/
abbrev Text := List ℕ

def text (s : String) : Text := s.toList.map Char.toNat

/-- The classes of exceptions that handlers tell apart; a subclass counts as its base. -/
inductive Exn
  | keyError
  | valueError
  | typeError
  | attributeError
  | arithmeticError
  | runtimeError
  deriving DecidableEq

/-- A decoded value. A number with a fraction or an exponent, and a constant such as
`NaN`, are kept by their literals. -/
inductive Json
  | null
  | bool (b : Bool)
  | int (n : ℤ)
  | real (literal : Text)
  | str (s : Text)
  | arr (items : List Json)
  | obj (fields : List (Text × Json))

namespace Json

def isNull : Json → Bool
  | null => true
  | _ => false

def isStr : Json → Bool
  | str _ => true
  | _ => false

/-- `value == s`, for a text. -/
def isText (s : Text) : Json → Bool
  | str t => t = s
  | _ => false

/-- `value[key]`. -/
def subscript (value : Json) (key : String) : Except Exn Json :=
  match value with
  | obj fields => match fields.lookup (text key) with
    | some v => .ok v
    | none => .error .keyError
  | _ => .error .typeError

/-- `value.get(key, default)`. -/
def get (value : Json) (key : String) (default : Json) : Except Exn Json :=
  match value with
  | obj fields => .ok ((fields.lookup (text key)).getD default)
  | _ => .error .attributeError

end Json

end QuantTrader.Python
