import StyleLang.Expr.Outputs
import StyleLang.Property.Text
import StyleLang.Property.Expression
import StyleLang.Value.Access
import StyleLang.Proofs.Annotation
import StyleLang.Proofs.Elaboration
import StyleLang.Proofs.Compilation
import StyleLang.Proofs.Typing
import StyleLang.Proofs.NullForm
import StyleLang.Proofs.Untyped
import StyleLang.Proofs.Expectation
import StyleLang.Proofs.Nesting
import StyleLang.Proofs.Hoisting
import StyleLang.Proofs.Deciding
import StyleLang.Proofs.Rendering
import StyleLang.Proofs.Outputs
import StyleLang.Proofs.Recording
import StyleLang.Proofs.Location
import StyleLang.Proofs.Mirroring
import StyleLang.Proofs.Quoting
import StyleLang.Proofs.Warnings
import StyleLang.Proofs.Mismatches
import StyleLang.Proofs.Dependence
import StyleLang.Proofs.Equality
import StyleLang.Proofs.Magnitudes
import StyleLang.Proofs.Numerals
import StyleLang.Proofs.Scanning
import StyleLang.Proofs.Reading
import StyleLang.Proofs.RoundTrip
import StyleLang.Proofs.SpecRoundTrip
import StyleLang.Proofs.Channels
import StyleLang.Proofs.ColorRange
import StyleLang.Value.Parts
import StyleLang.Proofs.Arrays
import StyleLang.Proofs.CommonType
import StyleLang.Proofs.ItemTypes
import StyleLang.Proofs.Neutrality
import StyleLang.Proofs.Failures
import StyleLang.Proofs.Keys
import StyleLang.Proofs.Conversions
import StyleLang.Proofs.Decimals
import StyleLang.Proofs.Literals
import StyleLang.Proofs.NumberText
import StyleLang.Proofs.Bytes
import StyleLang.Proofs.ColorGrammar
import StyleLang.Proofs.HexSlices
import StyleLang.Proofs.ColorText
import StyleLang.Proofs.ColorNotations
import StyleLang.Proofs.Zeros
import StyleLang.Proofs.EqualText
