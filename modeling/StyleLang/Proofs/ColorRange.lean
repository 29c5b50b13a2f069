import StyleLang.Proofs.Channels
import StyleLang.Proofs.Rendering

/-!
# Colors of results

Every color in the result of an expression is in range, if those in its source and in the properties
of its context are (`PropertyExpression.colorsInRange_evaluate`). The literals of a compiled
expression are parts of its source (`mem_parts_of_compileExpression`), and evaluation passes on what
it is given, but for conversions, whose colors are in range (`Expr.colorsInRange_evaluate`).
-/

namespace StyleLang

/-! ## Literals -/

namespace Expr

variable {ty : Ty} {value : Value}

theorem literal_mem_nodes_wrap {wrapper : Wrapper} {input : Expr} :
    .literal ty value ∈ (Expr.wrap wrapper input).nodes ↔ .literal ty value ∈ input.nodes := by
  simp [nodes]

theorem literal_mem_nodes_coalesce {result : Ty} {args : List Expr} :
    .literal ty value ∈ (Expr.coalesce result args).nodes ↔
      ∃ arg ∈ args, .literal ty value ∈ arg.nodes := by
  simp [nodes, mem_nodesOfAll]

end Expr

/-- Every literal of a compiled expression is a part of its source. -/
theorem mem_parts_of_compileExpression {raw : Value} {expected : Option Ty} {root : Expr}
    (h : compileExpression raw expected = .ok root) {ty : Ty} {value : Value}
    (hliteral : .literal ty value ∈ root.nodes) : value ∈ raw.parts := by
  have hnodes : ∀ node ∈ root.nodes, ∀ ty value, node = .literal ty value → value ∈ raw.parts := by
    refine forall_mem_nodes_of_compileExpression h ?_ nofun nofun nofun
      fun _ _ _ _ ↦ ⟨nofun, nofun⟩
    rintro value hvalue _ _ _ ⟨⟩
    exact hvalue
  exact hnodes _ hliteral ty value rfl

/-! ## Evaluation -/

/-- Every color in a value, at any depth, is in range. -/
def Value.ColorsInRange (value : Value) : Prop :=
  ∀ c, .color c ∈ value.parts → c.InRange

/-- Every color in the properties of a context is in range. -/
def EvalContext.ColorsInRange (context : EvalContext) : Prop :=
  ∀ key value, context.property? key = some value → value.ColorsInRange

namespace Value

/-- The colors in a part of a value are colors in the value. -/
theorem ColorsInRange.part {value part : Value} (h : value.ColorsInRange)
    (hpart : part ∈ value.parts) : part.ColorsInRange :=
  fun c hc ↦ h c (mem_parts_trans hc hpart)

theorem colorsInRange_null : Value.null.ColorsInRange := by
  simp [ColorsInRange, parts]

theorem colorsInRange_bool (value : Bool) : (Value.bool value).ColorsInRange := by
  simp [ColorsInRange, parts]

theorem colorsInRange_number (x : Binary64) : (Value.number x).ColorsInRange := by
  simp [ColorsInRange, parts]

theorem colorsInRange_string (text : String) : (Value.string text).ColorsInRange := by
  simp [ColorsInRange, parts]

theorem colorsInRange_color_iff {c : Color} : (Value.color c).ColorsInRange ↔ c.InRange := by
  simp [ColorsInRange, parts]

/-- A converted value has its colors in range, if the value has. -/
theorem ColorsInRange.convert {input output : Value} (h : input.ColorsInRange) {target : Ty}
    (hconvert : target.convert input = .ok output) : output.ColorsInRange := by
  unfold Ty.convert at hconvert
  split at hconvert
  · cases hconvert
    exact colorsInRange_bool _
  · cases hconvert
    exact colorsInRange_string _
  · split at hconvert
    · cases hconvert
      exact colorsInRange_number _
    · cases hconvert
  · split at hconvert
    · rename_i hcolor
      cases hconvert
      rcases inRange_of_toColor? hcolor with rfl | hrange
      · exact h
      · exact colorsInRange_color_iff.mpr hrange
    · cases hconvert
  · cases hconvert
    exact h

/-- The properties of a feature have their colors in range, if the feature has. -/
theorem ColorsInRange.feature {feature : Value} (h : feature.ColorsInRange)
    (zoom? : Option Binary64) : EvalContext.ColorsInRange { zoom?, property? := feature.property? } := by
  intro key value hproperty
  cases feature with
  | object fields =>
      have hmem : (key, value) ∈ fields.entries := by
        obtain ⟨before, after, hentries, -⟩ := List.lookup_eq_some_iff.mp hproperty
        rw [hentries]
        exact List.mem_append_right _ List.mem_cons_self
      have hchild : value ∈ (Value.object fields).children := List.mem_map_of_mem hmem
      exact h.part (mem_parts_iff.mpr (.inr ⟨value, hchild, mem_parts_iff.mpr (.inl rfl)⟩))
  | _ => cases hproperty

/-- What a wrapper makes of a value has its colors in range, if the value has. -/
theorem ColorsInRange.apply {before after : Value} (h : before.ColorsInRange) {wrapper : Wrapper}
    (happly : wrapper.apply before = .ok after) : after.ColorsInRange := by
  unfold Wrapper.apply at happly
  split at happly
  · exact h.convert happly
  all_goals
    split at happly
    · cases happly
      exact h
    · cases happly

end Value

namespace Expr

variable {context : EvalContext}

/-- Evaluation keeps colors in range: the colors of a result are those of literals and properties,
or conversions have built them. -/
theorem colorsInRange_evaluate (hcontext : context.ColorsInRange) {expr : Expr}
    (hliterals : ∀ ty value, .literal ty value ∈ expr.nodes → value.ColorsInRange) {value : Value}
    (h : expr.evaluate context = .ok value) : value.ColorsInRange := by
  induction expr using Expr.induction generalizing value with
  | literal ty literal =>
      rw [evaluate_literal] at h
      cases h
      exact hliterals ty literal (by simp [nodes])
  | get key ih =>
      rw [evaluate_get, bind_eq_ok_iff] at h
      obtain ⟨name, -, h⟩ := h
      cases h
      cases hproperty : context.property? name with
      | none => exact Value.colorsInRange_null
      | some property => exact hcontext name property hproperty
  | has key ih =>
      rw [evaluate_has, bind_eq_ok_iff] at h
      obtain ⟨name, -, h⟩ := h
      cases h
      exact Value.colorsInRange_bool _
  | zoom =>
      rw [evaluate_zoom] at h
      split at h
      · cases h
        exact Value.colorsInRange_number _
      · cases h
  | wrap wrapper input ih =>
      rw [evaluate_wrap, bind_eq_ok_iff] at h
      obtain ⟨before, hinput, happly⟩ := h
      have hbefore := ih (fun ty value hmem ↦
        hliterals ty value (literal_mem_nodes_wrap.mpr hmem)) hinput
      exact hbefore.apply happly
  | coalesce ty args ih =>
      rw [evaluate_coalesce] at h
      by_cases hnull : value = .null
      · rw [hnull]
        exact Value.colorsInRange_null
      · obtain ⟨arg, hmem, harg⟩ := exists_of_evaluateFirst h hnull
        exact ih arg hmem (fun ty value hliteral ↦
          hliterals ty value (literal_mem_nodes_coalesce.mpr ⟨arg, hmem, hliteral⟩)) harg

end Expr

/-! ## Properties -/

/-- The default value of a specification has its colors in range, if the given default has. -/
theorem PropertySpec.colorsInRange_defaultValue {spec : PropertySpec}
    (h : ∀ value ∈ spec.default, value.ColorsInRange) : spec.defaultValue.ColorsInRange := by
  unfold defaultValue
  split
  · rename_i text _ _
    cases hcolor : Color.ofCss? text with
    | none => exact Value.colorsInRange_null
    | some c => exact Value.colorsInRange_color_iff.mpr (Color.inRange_of_ofCss? hcolor)
  · rename_i hdefault _
    exact h _ hdefault
  · exact Value.colorsInRange_null

namespace PropertyExpression

/-- A property expression gives colors in range where its expression does, if those of its default
are. -/
theorem colorsInRange_evaluate {property : PropertyExpression} {context : EvalContext}
    (hdefault : property.default.ColorsInRange)
    (hvalue : ∀ value, property.expression.evaluate context = .ok value → value.ColorsInRange) :
    (property.evaluate context).value.ColorsInRange := by
  unfold evaluate
  split
  · rename_i value hresult
    show (if value.isNull = true then property.default else value).ColorsInRange
    split
    · exact hdefault
    · exact hvalue value hresult
  · exact hdefault

/-- If the colors of the source, of the default and of the feature properties are in range, so are
those of every result: of the expression, and of the property expression, also in a run over several
contexts. Colors in range have no NaN among their channels; every color in CSS notation is in range,
and so is every color that a value is converted to, unless the value is that color. -/
theorem compile_colorsInRange {raw : Value} {spec : PropertySpec} {property : PropertyExpression}
    (h : compile raw (some spec) = .ok property) (hraw : raw.ColorsInRange)
    (hdefault : ∀ value ∈ spec.default, value.ColorsInRange) :
    (∀ context : EvalContext, context.ColorsInRange →
      (property.evaluate context).value.ColorsInRange ∧
        ∀ value, property.expression.evaluate context = .ok value → value.ColorsInRange) ∧
      (∀ contexts : List EvalContext, (∀ context ∈ contexts, context.ColorsInRange) →
        ∀ value ∈ (property.evaluateAll contexts).map (·.value), value.ColorsInRange) ∧
      (∀ c : Color, c.InRange → ∀ channel ∈ c.channels, channel.isNaN = false) ∧
      (∀ text c, Color.ofCss? text = some c → c.InRange) ∧
      ∀ value c, Value.toColor? value = some c → value = .color c ∨ c.InRange := by
  obtain ⟨ty, root, -, hroot, rfl⟩ := compile_eq_ok_iff.mp h
  have hliterals : ∀ ty value, .literal ty value ∈ root.nodes → value.ColorsInRange :=
    fun ty value hliteral ↦ hraw.part (mem_parts_of_compileExpression hroot hliteral)
  have hevaluate : ∀ context : EvalContext, context.ColorsInRange →
      ∀ value, root.evaluate context = .ok value → value.ColorsInRange :=
    fun context hcontext value hvalue ↦ root.colorsInRange_evaluate hcontext hliterals hvalue
  have hrender : ∀ context : EvalContext, context.ColorsInRange →
      (evaluate { expression := root, default := spec.defaultValue } context).value.ColorsInRange :=
    fun context hcontext ↦ colorsInRange_evaluate (PropertySpec.colorsInRange_defaultValue hdefault)
      (hevaluate context hcontext)
  refine ⟨fun context hcontext ↦ ⟨hrender context hcontext, hevaluate context hcontext⟩, ?_,
    fun c hc ↦ hc.not_isNaN, fun text c ↦ Color.inRange_of_ofCss?,
    fun value c ↦ Value.inRange_of_toColor?⟩
  intro contexts hcontexts value hvalue
  rw [map_value_evaluateAll] at hvalue
  obtain ⟨context, hmem, rfl⟩ := List.mem_map.mp hvalue
  exact hrender context (hcontexts context hmem)

/-- A conversion of looked-up channels, the first of which is the greatest, with a text as the
default. -/
theorem compile_colorsInRange_lookup :
    ∃ property context,
      compile (.call "to-color" [.call "get" [.string "a"]])
        (some { kind := "color", default := some (.string "#0008") }) = .ok property ∧
      context = ({
        property? := Value.property?
          (.object (.ofEntries [("a", .array [.number 255, .number 0, .number 0])])) } :
            EvalContext) ∧
      (property.evaluate context).value.type = .color ∧
      (property.evaluate context).value.ColorsInRange ∧
      ∀ value ∈ (property.evaluateAll [context, {}]).map (·.value), value.ColorsInRange := by
  have hproperty :
      compile (.call "to-color" [.call "get" [.string "a"]])
          (some { kind := "color", default := some (.string "#0008") }) =
        .ok {
          expression := .wrap ⟨.coercion, .color, false⟩ (.get (.literal .string (.string "a")))
          default := PropertySpec.defaultValue
            { kind := "color", default := some (.string "#0008") } } := rfl
  have hraw : (Value.call "to-color" [.call "get" [.string "a"]]).ColorsInRange := by
    simp [Value.ColorsInRange, Value.parts, Value.partsOfItems]
  have hdefault : ∀ value ∈ some (Value.string "#0008"), value.ColorsInRange := by
    rintro value ⟨⟩
    exact Value.colorsInRange_string _
  have harray : (Value.array [.number 255, .number 0, .number 0]).ColorsInRange := by
    simp [Value.ColorsInRange, Value.parts, Value.partsOfItems]
  have hfeature : (Value.object
      (.ofEntries [("a", .array [.number 255, .number 0, .number 0])])).ColorsInRange := by
    intro c hc
    rcases Value.mem_parts_iff.mp hc with heq | ⟨child, hchild, hc⟩
    · cases heq
    · rw [Value.children, SortedMap.entries_ofEntries (by simp), List.map_singleton,
        List.mem_singleton] at hchild
      subst hchild
      exact harray c hc
  have hcontext := hfeature.feature none
  have hnone : EvalContext.ColorsInRange {} := fun _ _ h ↦ by cases h
  obtain ⟨hvalue, hrun, -⟩ := compile_colorsInRange hproperty hraw hdefault
  refine ⟨_, _, hproperty, rfl, by decide +kernel, (hvalue _ hcontext).1, hrun _ ?_⟩
  exact List.forall_mem_cons.mpr ⟨hcontext, List.forall_mem_singleton.mpr hnone⟩

end PropertyExpression

end StyleLang
