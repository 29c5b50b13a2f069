import StyleLang.Color.Css
import StyleLang.Ty.Basic
import StyleLang.Value.Basic

/-!
# Property specifications

What a style property takes: the kind of its values, for arrays the kind of the items and their
number, and a default value.
-/

namespace StyleLang

/-- The specification of a style property. `value` is the kind of the items of an array property. -/
structure PropertySpec where
  kind : String
  value : Option String := none
  length : Option UInt64 := none
  default : Option Value := none

namespace PropertySpec

/-- The comparison of specifications compares their defaults as values. -/
def equal (spec other : PropertySpec) : Bool :=
  spec.kind == other.kind && spec.value == other.value && spec.length == other.length &&
    spec.default == other.default

instance : BEq PropertySpec :=
  ⟨equal⟩

/-- The type that the expressions of a property must have. An enumeration is a string here; its
members are checked elsewhere. -/
def expectedType (spec : PropertySpec) : Option Ty :=
  match spec.kind with
  | "enum" => some .string
  | "array" =>
      match spec.value with
      | some item => (Ty.ofKind? item).map (.array · (spec.length.map (·.toNat)))
      | none => some (.array .value (spec.length.map (·.toNat)))
  | kind => Ty.ofKind? kind

/-- The default value. The default of a color property may be a CSS text, and is null if that is no
color. -/
def defaultValue (spec : PropertySpec) : Value :=
  match spec.default, spec.kind with
  | some (.string text), "color" => ((Color.ofCss? text).map .color).getD .null
  | some value, _ => value
  | none, _ => .null

end PropertySpec

end StyleLang
