import StyleLang.Binary64.Rounding

/-!
# Colors

A color has red, green, blue and alpha channels, which lie between zero and one in every color that
is built by `ofRgba8?`. Some colors have a name of their own (`ofName?`).
-/

namespace StyleLang

/-- A color with channels between zero and one. -/
structure Color where
  red : Binary64
  green : Binary64
  blue : Binary64
  alpha : Binary64
  deriving DecidableEq

namespace Color

/-- The comparison of colors compares their channels as numbers. -/
def equal (c d : Color) : Bool :=
  c.red == d.red && c.green == d.green && c.blue == d.blue && c.alpha == d.alpha

instance : BEq Color :=
  ⟨equal⟩

/-- The color of channels between 0 and 255 and an alpha between zero and one. There is none if a
channel is out of its range. -/
def ofRgba8? (red green blue alpha : Binary64) : Option Color :=
  if red.within 0 255 && green.within 0 255 && blue.within 0 255 && alpha.within 0 1 then
    some ⟨red / 255, green / 255, blue / 255, alpha⟩
  else none

/-- The color of four channels between 0 and 255. -/
def ofBytes? (red green blue alpha : Nat) : Option Color :=
  ofRgba8? (.ofNat red) (.ofNat green) (.ofNat blue) (.ofNat alpha / 255)

/-- The names of colors, each with red, green, blue and alpha. -/
def names : List (String × Nat × Nat × Nat × Nat) :=
  [("transparent", 0, 0, 0, 0), ("black", 0, 0, 0, 255), ("white", 255, 255, 255, 255),
    ("red", 255, 0, 0, 255), ("lime", 0, 255, 0, 255), ("green", 0, 128, 0, 255),
    ("blue", 0, 0, 255, 255), ("yellow", 255, 255, 0, 255), ("cyan", 0, 255, 255, 255),
    ("aqua", 0, 255, 255, 255), ("magenta", 255, 0, 255, 255), ("fuchsia", 255, 0, 255, 255),
    ("gray", 128, 128, 128, 255), ("grey", 128, 128, 128, 255), ("silver", 192, 192, 192, 255),
    ("maroon", 128, 0, 0, 255), ("olive", 128, 128, 0, 255), ("navy", 0, 0, 128, 255),
    ("purple", 128, 0, 128, 255), ("teal", 0, 128, 128, 255), ("orange", 255, 165, 0, 255),
    ("pink", 255, 192, 203, 255), ("brown", 165, 42, 42, 255)]

/-- The color of a name. -/
def ofName? (name : String) : Option Color :=
  (names.lookup name).bind fun (red, green, blue, alpha) ↦ ofBytes? red green blue alpha

end Color

end StyleLang
