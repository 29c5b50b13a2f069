import StyleLang.Proofs.ColorGrammar

/-!
# Hexadecimal colors by byte positions

`Color.ofHexSlices` reads the digits of a hexadecimal color as slices between byte positions, each
slice as a number of eight bits, and doubles a single digit by a multiplication by 17 in eight bits.
A slice that splits a character, a number that does not fit and a product that does not fit are
failures of their own. `Color.ofHexSlices_eq` says that none of them ever happens, whatever the
text is, and that the result is that of `Color.ofHex?`, which takes the digits as characters.
-/

namespace StyleLang

namespace Text

/-- The length of a text in bytes. -/
def byteLength : List Char → Nat
  | [] => 0
  | c :: text => c.utf8Size + byteLength text

/-- A text from a byte position on. There is none if the position lies within a character or past
the end. -/
def dropBytes? : (count : Nat) → List Char → Option (List Char)
  | 0, text => some text
  | _ + 1, [] => none
  | count + 1, c :: text =>
      if c.utf8Size ≤ count + 1 then dropBytes? (count + 1 - c.utf8Size) text else none

/-- The first bytes of a text, under the same conditions. -/
def takeBytes? : (count : Nat) → List Char → Option (List Char)
  | 0, _ => some []
  | _ + 1, [] => none
  | count + 1, c :: text =>
      if c.utf8Size ≤ count + 1 then (takeBytes? (count + 1 - c.utf8Size) text).map (c :: ·)
      else none

/-- A number of bytes from a byte position on. -/
def slice? (text : List Char) (start count : Nat) : Option (List Char) :=
  (dropBytes? start text).bind (takeBytes? count)

example : slice? "aäb".toList 1 2 = some ['ä'] := by decide

example : slice? "aäb".toList 1 1 = none := by decide

/-- Every character takes one byte. -/
def IsAscii (text : List Char) : Prop :=
  ∀ c ∈ text, c.utf8Size = 1

theorem byteLength_of_isAscii {text : List Char} (h : IsAscii text) :
    byteLength text = text.length := by
  induction text with
  | nil => rfl
  | cons c text ih =>
      obtain ⟨hc, htext⟩ := List.forall_mem_cons.mp h
      rw [byteLength, hc, ih htext, List.length_cons, Nat.add_comm]

theorem dropBytes?_of_isAscii {text : List Char} (h : IsAscii text) {count : Nat}
    (hcount : count ≤ text.length) : dropBytes? count text = some (text.drop count) := by
  induction text generalizing count with
  | nil =>
      obtain rfl := Nat.le_zero.mp hcount
      rfl
  | cons c text ih =>
      obtain ⟨hc, htext⟩ := List.forall_mem_cons.mp h
      cases count with
      | zero => rfl
      | succ count =>
          rw [dropBytes?, hc, if_pos (Nat.le_add_left 1 count), Nat.add_sub_cancel,
            ih htext (Nat.le_of_succ_le_succ hcount), List.drop_succ_cons]

theorem takeBytes?_of_isAscii {text : List Char} (h : IsAscii text) {count : Nat}
    (hcount : count ≤ text.length) : takeBytes? count text = some (text.take count) := by
  induction text generalizing count with
  | nil =>
      obtain rfl := Nat.le_zero.mp hcount
      rfl
  | cons c text ih =>
      obtain ⟨hc, htext⟩ := List.forall_mem_cons.mp h
      cases count with
      | zero => rfl
      | succ count =>
          rw [takeBytes?, hc, if_pos (Nat.le_add_left 1 count), Nat.add_sub_cancel,
            ih htext (Nat.le_of_succ_le_succ hcount), Option.map_some, List.take_succ_cons]

/-- Where every character takes one byte, the slices within the text are those of characters. -/
theorem slice?_of_isAscii {text : List Char} (h : IsAscii text) {start count : Nat}
    (hcount : start + count ≤ text.length) :
    slice? text start count = some ((text.drop start).take count) := by
  have hrest : IsAscii (text.drop start) := fun c hc ↦ h c (List.mem_of_mem_drop hc)
  have hlength : count ≤ (text.drop start).length := by
    rw [List.length_drop]
    omega
  rw [slice?, dropBytes?_of_isAscii h (by omega), Option.bind_some,
    takeBytes?_of_isAscii hrest hlength]

end Text

namespace Hex

/-- Reads a number of eight bits from hexadecimal digits, which may follow a plus. -/
def byte? (text : List Char) : Option Nat :=
  let unsigned :=
    match text with
    | '+' :: rest => rest
    | _ => text
  if unsigned.isEmpty then none
  else ((unsigned.mapM digit?).map number).filter (· < UInt8.size)

/-- A product of eight bits. There is none if it does not fit. -/
def mulByte? (a b : Nat) : Option Nat :=
  if a * b < UInt8.size then some (a * b) else none

/-- The value of a digit at a byte position, doubled. -/
def single? (text : List Char) (position : Nat) : Option Nat := do
  let value ← (Text.slice? text position 1).bind byte?
  mulByte? value 17

/-- The value of the two digits from a byte position on. -/
def pair? (text : List Char) (position : Nat) : Option Nat :=
  (Text.slice? text position 2).bind byte?

/-- A digit takes one byte, is no sign and has a value below 16. -/
theorem utf8Size_of_digit? {c : Char} {value : Nat} (h : digit? c = some value) :
    c.utf8Size = 1 ∧ c ≠ '+' ∧ value < 16 := by
  have hle : ∀ {low high : Char}, low ≤ high ↔ low.toNat ≤ high.toNat := UInt32.le_iff_toNat_le
  have hdigit : '0'.toNat ≤ c.toNat ∧ c.toNat ≤ 'f'.toNat ∧ value < 16 := by
    simp only [digit?, hle, Char.reduceToNat] at h ⊢
    split at h
    · cases h
      omega
    · split at h
      · cases h
        omega
      · split at h
        · cases h
          omega
        · cases h
  refine ⟨?_, ?_, hdigit.2.2⟩
  · exact Char.utf8Size_eq_one_iff.mpr (UInt32.le_iff_toNat_le.mpr (hdigit.2.1.trans (by decide)))
  · rintro rfl
    exact absurd hdigit.1 (by decide)

theorem Reads.isAscii {text : List Char} {values : List Nat} (h : Reads text values) :
    Text.IsAscii text := by
  intro c hc
  obtain ⟨value, -, hdigit⟩ := exists_mem_of_forall₂ h c hc
  exact (utf8Size_of_digit? hdigit).1

/-- A text in which every character is a digit is read, and no other text. -/
theorem exists_reads_iff {text : List Char} :
    (∃ values, Reads text values) ↔ ∀ c ∈ text, (digit? c).isSome = true := by
  constructor
  · rintro ⟨values, hvalues⟩ c hc
    obtain ⟨value, -, hdigit⟩ := exists_mem_of_forall₂ hvalues c hc
    exact Option.isSome_of_eq_some hdigit
  · intro h
    induction text with
    | nil => exact ⟨[], .nil⟩
    | cons c text ih =>
        obtain ⟨hc, htext⟩ := List.forall_mem_cons.mp h
        obtain ⟨value, hvalue⟩ := Option.isSome_iff_exists.mp hc
        obtain ⟨values, hvalues⟩ := ih htext
        exact ⟨value :: values, .cons hvalue hvalues⟩

/-- One or two digits are a number of eight bits. -/
theorem Reads.byte?_eq {text : List Char} {values : List Nat} (h : Reads text values)
    (hne : values ≠ []) (hlength : values.length ≤ 2) : byte? text = some (number values) := by
  have hsmall : number values < UInt8.size := by
    have hsize : UInt8.size = 256 := rfl
    rw [hsize]
    rcases h with _ | ⟨hfirst, _ | ⟨hsecond, _ | _⟩⟩
    · exact absurd rfl hne
    · have hlt := (utf8Size_of_digit? hfirst).2.2
      simp only [number, List.foldl_cons, List.foldl_nil]
      omega
    · have hlt := (utf8Size_of_digit? hfirst).2.2
      have hlt' := (utf8Size_of_digit? hsecond).2.2
      simp only [number, List.foldl_cons, List.foldl_nil]
      omega
    · simp at hlength
  have hread := mapM_digit?_eq_some_iff.mpr h
  cases h with
  | nil => exact absurd rfl hne
  | cons hdigit _ =>
      simp [byte?, (utf8Size_of_digit? hdigit).2.1, hread, hsmall, - List.mapM_cons]

/-- A slice within the digits reads the digits there. -/
theorem Reads.slice?_eq {text : List Char} {values : List Nat} (h : Reads text values)
    (position count : Nat) (hposition : position + count ≤ values.length) :
    ∃ digits, Text.slice? text position count = some digits ∧
      Reads digits ((values.drop position).take count) :=
  ⟨_, Text.slice?_of_isAscii h.isAscii (h.length_eq ▸ hposition),
    List.forall₂_take count (List.forall₂_drop position h)⟩

/-- A digit within the text is read and doubled. -/
theorem Reads.single?_eq {text : List Char} {values : List Nat} (h : Reads text values)
    {position : Nat} (hposition : position < values.length) :
    single? text position = some (17 * values[position]) := by
  obtain ⟨digits, hslice, hdigits⟩ := h.slice?_eq position 1 (Nat.succ_le_of_lt hposition)
  rw [List.drop_eq_getElem_cons hposition, List.take_succ_cons, List.take_zero] at hdigits
  have hvalue : byte? digits = some values[position] := by
    rw [hdigits.byte?_eq (by simp) (by simp), number, List.foldl_cons, List.foldl_nil,
      Nat.mul_zero, Nat.zero_add]
  have hlt : values[position] < 16 := by
    cases hdigits with
    | cons hdigit _ => exact (utf8Size_of_digit? hdigit).2.2
  have hproduct : values[position] * 17 < UInt8.size := by
    have hsize : UInt8.size = 256 := rfl
    omega
  rw [single?, hslice, Option.bind_some, hvalue]
  show mulByte? values[position] 17 = _
  rw [mulByte?, if_pos hproduct, Nat.mul_comm]

/-- Two digits within the text are read. -/
theorem Reads.pair?_eq {text : List Char} {values : List Nat} (h : Reads text values)
    {position : Nat} (hposition : position + 1 < values.length) :
    pair? text position = some (16 * values[position] + values[position + 1]) := by
  obtain ⟨digits, hslice, hdigits⟩ := h.slice?_eq position 2 hposition
  rw [List.drop_eq_getElem_cons (by omega), List.take_succ_cons,
    List.drop_eq_getElem_cons hposition, List.take_succ_cons, List.take_zero] at hdigits
  rw [pair?, hslice, Option.bind_some, hdigits.byte?_eq (by simp) (by simp)]
  simp [number]

end Hex

/-- Reads the digits after `#` by their byte positions. The outer result is missing if a slice, a
number or a product fails. -/
def Color.ofHexSlices (text : List Char) : Option (Option Color) :=
  if text.all fun c ↦ (Hex.digit? c).isSome then
    match Text.byteLength text with
    | 3 | 4 => do
        let alpha ← if Text.byteLength text = 4 then Hex.single? text 3 else some 255
        let red ← Hex.single? text 0
        let green ← Hex.single? text 1
        let blue ← Hex.single? text 2
        some (ofBytes? red green blue alpha)
    | 6 | 8 => do
        let alpha ← if Text.byteLength text = 8 then Hex.pair? text 6 else some 255
        let red ← Hex.pair? text 0
        let green ← Hex.pair? text 2
        let blue ← Hex.pair? text 4
        some (ofBytes? red green blue alpha)
    | _ => some none
  else some none

/-- No slice, no number and no product fails. -/
theorem Color.ofHexSlices_eq (text : List Char) : ofHexSlices text = some (ofHex? text) := by
  rw [ofHexSlices]
  split
  · rename_i hall
    obtain ⟨values, hvalues⟩ := Hex.exists_reads_iff.mpr (List.all_eq_true.mp hall)
    have hlength : Text.byteLength text = values.length := by
      rw [Text.byteLength_of_isAscii hvalues.isAscii, hvalues.length_eq]
    rw [hlength, ofHex?, Hex.mapM_digit?_eq_some_iff.mpr hvalues]
    have hsingle := fun position (h : position < values.length) ↦ hvalues.single?_eq h
    have hpair := fun position (h : position + 1 < values.length) ↦ hvalues.pair?_eq h
    clear hvalues hlength
    rcases values with _ | ⟨a, _ | ⟨b, _ | ⟨c, _ | ⟨d, _ | ⟨e, _ | ⟨f, _ | ⟨g, _ | ⟨h, _ | _⟩⟩⟩⟩⟩⟩⟩⟩
    · rfl
    · rfl
    · rfl
    · simp [hsingle]
    · simp [hsingle]
    · rfl
    · simp [hpair]
    · rfl
    · simp [hpair]
    · rfl
  · rename_i hall
    have hnone : text.mapM Hex.digit? = none := by
      by_contra hsome
      obtain ⟨values, hvalues⟩ := Option.ne_none_iff_exists'.mp hsome
      exact hall (List.all_eq_true.mpr
        (Hex.exists_reads_iff.mp ⟨values, Hex.mapM_digit?_eq_some_iff.mp hvalues⟩))
    rw [ofHex?, hnone]

end StyleLang
