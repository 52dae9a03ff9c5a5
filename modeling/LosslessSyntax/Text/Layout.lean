/-!
# One-line layout of values

How a structured value is written on one line: a record with named fields, a value applied to
arguments, a list, a word of named flags, and a number filled up with zeros.
-/

set_option autoImplicit false

namespace LosslessSyntax.Text

def list (items : List String) : String := "[" ++ ", ".intercalate items ++ "]"

def call (name : String) (args : List String) : String := name ++ "(" ++ ", ".intercalate args ++ ")"

def record (name : String) (fields : List (String × String)) : String :=
  name ++ " \x7b " ++ ", ".intercalate (fields.map fun (field, value) => field ++ ": " ++ value) ++ " \x7d"

/-- A word of flags as the names of those that are set; `0x0` stands for none. -/
def flags (name : String) (named : List (String × Bool)) : String :=
  match (named.filter (·.2)).map (·.1) with
  | [] => call name ["0x0"]
  | set => call name [" | ".intercalate set]

/-- The decimal digits of `n`, with zeros in front up to `width` digits. -/
def padded (width n : Nat) : String :=
  let digits := Nat.toDigits 10 n
  String.ofList (List.replicate (width - digits.length) '0' ++ digits)

end LosslessSyntax.Text
