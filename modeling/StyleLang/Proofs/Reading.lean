import StyleLang.Json.Basic
import StyleLang.Proofs.Scanning

/-!
# Reading JSON trees

The tokens of a JSON tree, and the reader's way through them: wherever a value is needed, the tokens
of a tree complete that tree (`Json.completes`). So every tree is read back from its tokens
(`Json.ofTokens?_tokens`).
-/

namespace StyleLang.Json

/-- A property of all trees follows if it passes from items to arrays and from members to
objects. -/
@[elab_as_elim]
theorem induction {motive : Json → Prop} (null : motive .null)
    (bool : ∀ value, motive (.bool value)) (number : ∀ numeral, motive (.number numeral))
    (string : ∀ text, motive (.string text))
    (array : ∀ items : List Json, (∀ item ∈ items, motive item) → motive (.array items))
    (object : ∀ members : List (Option String × Json), (∀ member ∈ members, motive member.2) →
      motive (.object members)) (json : Json) : motive json := by
  refine Json.rec (motive_1 := motive) (motive_2 := fun items ↦ ∀ item ∈ items, motive item)
    (motive_3 := fun members ↦ ∀ member ∈ members, motive member.2)
    (motive_4 := fun member ↦ motive member.2)
    null bool number string array object ?_ ?_ ?_ ?_ ?_ json
  · simp
  · intro head tail ihHead ihTail
    exact List.forall_mem_cons.mpr ⟨ihHead, ihTail⟩
  · simp
  · intro head tail ihHead ihTail
    exact List.forall_mem_cons.mpr ⟨ihHead, ihTail⟩
  · intro name json ih
    exact ih

mutual

/-- The tokens of a tree. -/
def tokens : Json → List Token
  | .null => [.null]
  | .bool value => [.bool value]
  | .number numeral => [.number numeral]
  | .string text => [.string text]
  | .array items =>
      .openBracket :: ([Token.comma].intercalate (tokensOfItems items) ++ [.closeBracket])
  | .object members =>
      .openBrace :: ([Token.comma].intercalate (tokensOfMembers members) ++ [.closeBrace])

/-- The tokens of each item of an array. -/
def tokensOfItems : List Json → List (List Token)
  | [] => []
  | item :: items => tokens item :: tokensOfItems items

/-- The tokens of each member of an object. -/
def tokensOfMembers : List (Option String × Json) → List (List Token)
  | [] => []
  | (name, json) :: members =>
      (.string name :: .colon :: tokens json) :: tokensOfMembers members

end

theorem tokensOfItems_eq_map (items : List Json) : tokensOfItems items = items.map tokens := by
  induction items with
  | nil => rfl
  | cons item items ih => rw [tokensOfItems, List.map_cons, ih]

theorem tokensOfMembers_eq_map (members : List (Option String × Json)) :
    tokensOfMembers members =
      members.map fun (name, json) ↦ .string name :: .colon :: json.tokens := by
  induction members with
  | nil => rfl
  | cons member members ih => rw [tokensOfMembers, List.map_cons, ih]

/-! ## The run of the reader -/

/-- Takes tokens one after the other. -/
def Reader.run? (reader : Reader) (tokens : List Token) : Option Reader :=
  tokens.foldlM Reader.step reader

namespace Reader

theorem run?_append (reader : Reader) (tokens more : List Token) :
    reader.run? (tokens ++ more) = (reader.run? tokens).bind (·.run? more) :=
  List.foldlM_append ..

theorem run?_of_step {reader next : Reader} {token : Token} (h : reader.step token = some next)
    (tokens : List Token) : reader.run? (token :: tokens) = next.run? tokens := by
  rw [run?, List.foldlM_cons, h]
  rfl

theorem run?_singleton (reader : Reader) (token : Token) :
    reader.run? [token] = reader.step token := by
  rw [run?, List.foldlM_cons]
  cases reader.step token <;> rfl

theorem run?_append_of_eq {reader next : Reader} {tokens : List Token}
    (h : reader.run? tokens = some next) (more : List Token) :
    reader.run? (tokens ++ more) = next.run? more := by
  rw [run?_append, h, Option.bind_some]

end Reader

/-- A list with commas in it is read up to its closing bracket, if the reader goes on after each
element and its comma, and is done after an element and the bracket. -/
theorem Reader.run?_intercalate {α : Type} (place finish : List α → Reader)
    {elementTokens : α → List Token} {closing : Token} {first : α} {rest : List α}
    (hcomma : ∀ element ∈ first :: rest, ∀ before,
      (place before).run? (elementTokens element ++ [.comma]) = some (place (element :: before)))
    (hclosing : ∀ element ∈ first :: rest, ∀ before,
      (place before).run? (elementTokens element ++ [closing]) =
        some (finish (element :: before).reverse)) (before : List α) :
    (place before).run?
        ([Token.comma].intercalate ((first :: rest).map elementTokens) ++ [closing]) =
      some (finish (before.reverse ++ first :: rest)) := by
  induction rest generalizing first before with
  | nil => simpa using hclosing first List.mem_cons_self before
  | cons second rest ih =>
      obtain ⟨hfirst, hcomma⟩ := List.forall_mem_cons.mp hcomma
      obtain ⟨-, hclosing⟩ := List.forall_mem_cons.mp hclosing
      have hrest := ih hcomma hclosing (first :: before)
      rw [List.reverse_cons, List.append_assoc, List.singleton_append] at hrest
      rw [List.map_cons, List.map_cons, List.intercalate_cons_cons, List.append_assoc,
        Reader.run?_append_of_eq (hfirst before)]
      exact hrest

/-- The reader in an array after some items, which are given in reverse. -/
def Reader.inArray (stack : List Frame) : List Json → Reader
  | [] => ⟨.array [] :: stack, .firstItem⟩
  | item :: items => ⟨.array (item :: items) :: stack, .value⟩

/-- The reader in an object after some members, which are given in reverse. -/
def Reader.inObject (stack : List Frame) : List (Option String × Json) → Reader
  | [] => ⟨stack, .firstName⟩
  | member :: members => ⟨stack, .name (member :: members)⟩

/-- The tokens of a tree complete it wherever a value is needed. -/
def Completes (json : Json) : Prop :=
  ∀ stack, Reader.run? ⟨stack, .value⟩ json.tokens = some ⟨stack, .after json⟩

variable {stack : List Frame}

/-- An item is read in its place, be it the first or a later one. -/
theorem Completes.run?_inArray {item : Json} (h : item.Completes) (before : List Json)
    (token : Token) :
    (Reader.inArray stack before).run? (item.tokens ++ [token]) =
      Reader.step ⟨.array before :: stack, .after item⟩ token := by
  have hvalue : (Reader.inArray stack before).run? item.tokens =
      Reader.run? ⟨.array before :: stack, .value⟩ item.tokens := by
    cases before with
    | nil =>
        -- The first token of a tree does not close the array.
        cases item <;> rw [tokens] <;> rfl
    | cons => rfl
  rw [Reader.run?_append_of_eq (hvalue.trans (h _)), Reader.run?_singleton]

/-- A member is read in its place, be it the first or a later one. -/
theorem Completes.run?_inObject {json : Json} (h : json.Completes) (name : Option String)
    (before : List (Option String × Json)) (token : Token) :
    (Reader.inObject stack before).run? (.string name :: .colon :: json.tokens ++ [token]) =
      Reader.step ⟨.object before name :: stack, .after json⟩ token := by
  have hvalue : (Reader.inObject stack before).run? (.string name :: .colon :: json.tokens) =
      Reader.run? ⟨.object before name :: stack, .value⟩ json.tokens := by
    cases before <;> rfl
  rw [Reader.run?_append_of_eq (hvalue.trans (h _)), Reader.run?_singleton]

/-- Every tree is completed by its tokens. -/
theorem completes (json : Json) : json.Completes := by
  induction json using Json.induction with
  | null | bool | number | string =>
      intro stack
      rw [tokens]
      rfl
  | array items ih =>
      intro stack
      have hopen : Reader.step ⟨stack, .value⟩ .openBracket = some (.inArray stack []) := rfl
      rw [tokens, tokensOfItems_eq_map, Reader.run?_of_step hopen]
      cases items with
      | nil => rfl
      | cons first rest =>
          refine Reader.run?_intercalate (.inArray stack)
            (fun items ↦ ⟨stack, .after (.array items)⟩)
            (fun item hitem before ↦ ?_) (fun item hitem before ↦ ?_) []
          · exact (ih item hitem).run?_inArray before .comma
          · exact (ih item hitem).run?_inArray before .closeBracket
  | object members ih =>
      intro stack
      have hopen : Reader.step ⟨stack, .value⟩ .openBrace = some (.inObject stack []) := rfl
      rw [tokens, tokensOfMembers_eq_map, Reader.run?_of_step hopen]
      cases members with
      | nil => rfl
      | cons first rest =>
          refine Reader.run?_intercalate (.inObject stack)
            (fun members ↦ ⟨stack, .after (.object members)⟩)
            (fun member hmember before ↦ ?_) (fun member hmember before ↦ ?_) []
          · exact (ih member hmember).run?_inObject member.1 before .comma
          · exact (ih member hmember).run?_inObject member.1 before .closeBrace

/-- Every tree is read back from its tokens. -/
theorem ofTokens?_tokens (json : Json) : ofTokens? json.tokens = some json := by
  show (Reader.run? Reader.start json.tokens).bind Reader.result? = _
  rw [Reader.start, json.completes]
  rfl

/-- A tree is read from every text that spells its tokens. -/
theorem ofText?_of_spells {text : String} {json : Json}
    (h : Scanner.Spells text.toList json.tokens) : ofText? text = some json := by
  rw [ofText?, h.scan?, Option.bind_some, ofTokens?_tokens]

end StyleLang.Json
