import StyleLang.Compile.Form
import StyleLang.Ty.Basic

/-!
# Compile errors

Why an expression does not compile, where the reason lies, and what is said of it. A place in an
expression is the list of the operand positions that lead to it, the outermost first.
-/

namespace StyleLang

/-- Why an expression does not compile. -/
inductive CompileError.Cause where
  | emptyArray
  | operatorNotString (found : Ty)
  | unknownOperator (name : String)
  | bareObject
  | typeMismatch (expected found : Ty)
  | operandCount (family : FormFamily) (found : Nat)
  | operatorOutsideFamily (family : FormFamily) (name : Option String)
  | arrayItem
  | arrayLength
  | unknownPropertyType (kind : String)
  | custom (message : String)
  deriving DecidableEq

namespace CompileError.Cause

/-- What is said of a wrong number of operands. -/
def countMessage (found : Nat) : FormFamily → String
  | .array => expected "1, 2, or 3 arguments"
  | .assertion | .coercion | .get | .has => expected "1 argument"
  | .coalesce => "Expected at least one argument."
  | .literal =>
      "'literal' expression requires exactly one argument, but found " ++ count ++ " instead."
  | .zoom => expected "no arguments"
where
  /-- The number of operands in digits. -/
  count : String := Digit.text (Digit.ofNat found)
  /-- The usual wording. -/
  expected (operands : String) : String :=
    "Expected " ++ operands ++ ", but found " ++ count ++ " instead."

/-- What is said of a family that is used under a name that is none of its operators. -/
def familyMessage : FormFamily → Option String → String
  | .coercion, none => "Expected a coercion name."
  | .coercion, some name => "Unknown coercion \"" ++ name ++ "\"."
  | _, none => "Expected a type assertion name."
  | _, some name => "Unknown type assertion \"" ++ name ++ "\"."

/-- The text of a cause. -/
def message : Cause → String
  | emptyArray =>
      "Expected an array with at least one element. " ++
        "If you wanted a literal array, use [\"literal\", []]."
  | operatorNotString found =>
      "Expression name must be a string, but found " ++ found.text ++
        " instead. If you wanted a literal array, use [\"literal\", [...]]."
  | unknownOperator name =>
      "Unknown expression \"" ++ name ++
        "\". If you wanted a literal array, use [\"literal\", [...]]."
  | bareObject => "Bare objects invalid. Use [\"literal\", \x7b...\x7d] instead."
  | typeMismatch expected found => expected.mismatch found
  | operandCount family found => countMessage found family
  | operatorOutsideFamily family name => familyMessage family name
  | arrayItem =>
      "The item type argument of \"array\" must be one of string, number, boolean"
  | arrayLength =>
      "The length argument to \"array\" must be a positive integer literal."
  | unknownPropertyType kind => "Unknown property type \"" ++ kind ++ "\"."
  | custom message => message

end CompileError.Cause

/-- A cause at a place in an expression. -/
structure CompileError where
  location : List Nat
  cause : CompileError.Cause

/-- The text of a place, each position in brackets. -/
def locationText (location : List Nat) : String :=
  String.join (location.map fun index ↦ "[" ++ Digit.text (Digit.ofNat index) ++ "]")

namespace CompileError

/-- The text of the place of an error. -/
def key (error : CompileError) : String :=
  locationText error.location

/-- What is said of the cause of an error. -/
def message (error : CompileError) : String :=
  error.cause.message

/-- The text of an error. An error in the whole expression names no place. -/
def text (error : CompileError) : String :=
  if error.location.isEmpty then error.message else error.key ++ ": " ++ error.message

/-- Errors are compared by what is said. -/
instance : BEq CompileError :=
  ⟨fun a b ↦ a.key == b.key && a.message == b.message⟩

/-- The text of several errors, each on a line of its own. -/
def report (errors : List CompileError) : String :=
  "\n".intercalate (errors.map text)

end CompileError

end StyleLang
