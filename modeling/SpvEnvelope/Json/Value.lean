import SpvEnvelope.Error

/-!
# JSON values

Values as they appear in JSON documents, and their text without any blanks. Natural numbers are kept
apart from other numbers, since counts, offsets and heights admit nothing else. Other numbers are
kept as they were written, and the one reader of texts that is given here (`Json.parse`) has no other
numbers and no blanks: it is for texts that `Json.render` has written.

Reading a value converts nothing from another type, and numbers must be natural and fit in 64 bits.
A record is an object, whose unknown fields are ignored and whose known fields may not be repeated
(`Json.toDraft_obj_eq_ok_iff`), or an array of the record's values in their fixed order, whose last
values may be left out like the fields of an object. The first field that is repeated or has a value
that cannot be read, in the order of the document, is the one that is reported.
-/

namespace SpvEnvelope

/-- A JSON value. The fields of an object keep their order. -/
inductive Json where
  | null
  | bool (value : Bool)
  | nat (value : Nat)
  /-- A number that is not written as a natural one. -/
  | number (text : String)
  | str (value : String)
  | arr (items : List Json)
  | obj (fields : List (String × Json))

namespace Json

/-! ## Text -/

/-- A character as it is written in a JSON string. -/
def escape (c : Char) : List Char :=
  if c = '"' then ['\\', '"']
  else if c = '\\' then ['\\', '\\']
  else if c = '\n' then ['\\', 'n']
  else if c = '\r' then ['\\', 'r']
  else if c = '\t' then ['\\', 't']
  else if c.toNat = 8 then ['\\', 'b']
  else if c.toNat = 12 then ['\\', 'f']
  else if c.toNat < 32 then ['\\', 'u', '0', '0'] ++ Hex.byteDigits (UInt8.ofNat c.toNat)
  else [c]

/-- A JSON string. -/
def quote (text : String) : String :=
  String.ofList ('"' :: text.toList.flatMap escape ++ ['"'])

mutual

/-- Appends the text of a value to `text`. -/
def renderOnto (text : String) : Json → String
  | .null => text ++ "null"
  | .bool true => text ++ "true"
  | .bool false => text ++ "false"
  | .nat value => text ++ toString value
  | .number written => text ++ written
  | .str value => text ++ quote value
  | .arr items => renderItemsOnto (text ++ "[") items ++ "]"
  | .obj fields => renderFieldsOnto (text ++ "\x7b") fields ++ "\x7d"

/-- Appends the texts of values, with commas between them. -/
def renderItemsOnto (text : String) : List Json → String
  | [] => text
  | [item] => renderOnto text item
  | item :: next :: rest => renderItemsOnto (renderOnto text item ++ ",") (next :: rest)

/-- Appends the texts of fields, with commas between them. -/
def renderFieldsOnto (text : String) : List (String × Json) → String
  | [] => text
  | [(key, value)] => renderOnto (text ++ quote key ++ ":") value
  | (key, value) :: next :: rest =>
    renderFieldsOnto (renderOnto (text ++ quote key ++ ":") value ++ ",") (next :: rest)

end

/-- The text of a value. -/
def render (value : Json) : String :=
  renderOnto "" value

/-- A 64-bit number. -/
def ofUInt64 (value : UInt64) : Json :=
  .nat value.toNat

end Json

/-! ## Reading -/

/-- Why a JSON value does not denote something. -/
inductive JsonError where
  /-- The text is not that of a value. -/
  | notJson
  /-- The value has the wrong type, or a field is missing. -/
  | mismatch
  /-- An object has the field more than once. -/
  | repeatedField (name : String)
  /-- A text does not show a digest. -/
  | digest (cause : Digest.Error)
  /-- The leaf at this offset is neither a hashless duplicate nor one with a hash. -/
  | malformedLeaf (offset : UInt64)
  /-- The values do not make up a proof. -/
  | proof (cause : Error)
deriving DecidableEq

/-- The wording of a complaint that has one. -/
def JsonError.message? : JsonError → Option String
  | .notJson => none
  | .mismatch => none
  | .repeatedField _ => none
  | .digest cause => some cause.message
  | .malformedLeaf offset =>
    some s!"leaf at offset {offset} must be a hashless duplicate or carry a hash"
  | .proof cause => some cause.message

namespace Json

/-! ## Texts -/

/-- The value of a hex digit. -/
def hexValue? (c : Char) : Option Nat :=
  if c.toNat < 128 then Hex.digitValue? (UInt8.ofNat c.toNat) else none

/-- The character that a backslash and this letter stand for. -/
def unescape? : (letter : Char) → Option Char
  | '"' => some '"'
  | '\\' => some '\\'
  | 'n' => some '\n'
  | 'r' => some '\r'
  | 't' => some '\t'
  | 'b' => some (Char.ofNat 8)
  | 'f' => some (Char.ofNat 12)
  | _ => none

/-- Reads a string, after its opening quote and up to its closing one. -/
def readString : List Char → Option (List Char × List Char)
  | [] => none
  | '"' :: rest => some ([], rest)
  | '\\' :: 'u' :: '0' :: '0' :: high :: low :: rest => do
    let high ← hexValue? high
    let low ← hexValue? low
    let (text, rest) ← readString rest
    return (Char.ofNat (16 * high + low) :: text, rest)
  | '\\' :: letter :: rest => do
    let c ← unescape? letter
    let (text, rest) ← readString rest
    return (c :: text, rest)
  | c :: rest =>
    if c.toNat < 32 then none
    else do
      let (text, rest) ← readString rest
      return (c :: text, rest)

/-- Reads null or a truth value. -/
def readWord : List Char → Option (Json × List Char)
  | 'n' :: 'u' :: 'l' :: 'l' :: rest => some (.null, rest)
  | 't' :: 'r' :: 'u' :: 'e' :: rest => some (.bool true, rest)
  | 'f' :: 'a' :: 'l' :: 's' :: 'e' :: rest => some (.bool false, rest)
  | _ => none

mutual

/-- Reads a value that has no more than `fuel` characters. -/
def readValue : (fuel : Nat) → List Char → Option (Json × List Char)
  | 0, _ => none
  | _ + 1, [] => none
  | fuel + 1, c :: rest =>
    if c = '"' then do
      let (text, rest) ← readString rest
      return (.str (String.ofList text), rest)
    else if c = '[' then
      if rest.head? = some ']' then return (.arr [], rest.tail)
      else do
        let (items, rest) ← readItems fuel rest
        return (.arr items, rest)
    else if c = '\x7b' then
      if rest.head? = some '\x7d' then return (.obj [], rest.tail)
      else do
        let (fields, rest) ← readFields fuel rest
        return (.obj fields, rest)
    else if c.isDigit then
      return (.nat (Nat.ofDigitChars 10 ((c :: rest).takeWhile Char.isDigit) 0),
        (c :: rest).dropWhile Char.isDigit)
    else readWord (c :: rest)

/-- Reads the items of an array and its closing bracket. -/
def readItems : (fuel : Nat) → List Char → Option (List Json × List Char)
  | 0, _ => none
  | fuel + 1, input => do
    let (item, rest) ← readValue fuel input
    match rest with
    | ',' :: rest => do
      let (items, rest) ← readItems fuel rest
      return (item :: items, rest)
    | ']' :: rest => return ([item], rest)
    | _ => none

/-- Reads the fields of an object and its closing brace. -/
def readFields : (fuel : Nat) → List Char → Option (List (String × Json) × List Char)
  | 0, _ => none
  | fuel + 1, input => do
    let '"' :: rest := input | none
    let (name, ':' :: rest) ← readString rest | none
    let (value, rest) ← readValue fuel rest
    match rest with
    | ',' :: rest => do
      let (fields, rest) ← readFields fuel rest
      return ((String.ofList name, value) :: fields, rest)
    | '\x7d' :: rest => return ([(String.ofList name, value)], rest)
    | _ => none

end

/-- The value with this text. -/
def parse (text : String) : Except JsonError Json :=
  match readValue text.toList.length text.toList with
  | some (value, []) => .ok value
  | _ => .error .notJson

/-! ## Simple values -/

/-- A 64-bit number. -/
def toUInt64 : Json → Except JsonError UInt64
  | .nat value => if value < UInt64.size then .ok (UInt64.ofNat value) else .error .mismatch
  | _ => .error .mismatch

/-- A truth value. -/
def toBool : Json → Except JsonError Bool
  | .bool value => .ok value
  | _ => .error .mismatch

/-- The items of an array, each read by `read`. -/
def toList {α : Type} (read : Json → Except JsonError α) : Json → Except JsonError (List α)
  | .arr items => items.mapM read
  | _ => .error .mismatch

/-- What `read` reads, or none for null. -/
def toOption {α : Type} (read : Json → Except JsonError α) : Json → Except JsonError (Option α)
  | .null => .ok none
  | value => some <$> read value

/-- A digest, by its text. -/
def toDigest : Json → Except JsonError Digest
  | .str text =>
    match Digest.ofText text with
    | .ok digest => .ok digest
    | .error cause => .error (.digest cause)
  | _ => .error .mismatch

/-- The text of a digest. -/
def ofDigest (digest : Digest) : Json :=
  .str digest.text

/-! ## Records -/

/-- Takes the fields of an object into a draft, one after the other, with `set`. Those before have the
names `met`, and of the names among `keys` none may come again. -/
def setFields {δ : Type} (keys : List String) (set : δ → String × Json → Except JsonError δ) :
    (met : List String) → (draft : δ) → List (String × Json) → Except JsonError δ
  | _, draft, [] => .ok draft
  | met, draft, (name, value) :: rest =>
    if name ∈ keys ∧ name ∈ met then .error (.repeatedField name)
    else do
      let draft ← set draft (name, value)
      setFields keys set (name :: met) draft rest

/-- Reads a record with these keys into a draft: `set` takes one named value into it. -/
def toDraft {δ : Type} (keys : List String) (set : δ → String × Json → Except JsonError δ)
    (draft : δ) : Json → Except JsonError δ
  | .obj fields => setFields keys set [] draft fields
  | .arr items => do
    let draft ← (keys.zip items).foldlM set draft
    if items.length ≤ keys.length then return draft else throw .mismatch
  | _ => .error .mismatch

/-- The names of fields that are among `keys`. -/
def knownNames (keys : List String) (fields : List (String × Json)) : List String :=
  (fields.map (·.1)).filter (· ∈ keys)

section

variable {δ : Type} {keys : List String} {set : δ → String × Json → Except JsonError δ}
  {draft final : δ} {fields : List (String × Json)}

theorem setFields_eq_ok_iff {met : List String} : setFields keys set met draft fields = .ok final ↔
    (knownNames keys fields).Nodup ∧ (∀ name ∈ knownNames keys fields, name ∉ met) ∧
      fields.foldlM set draft = .ok final := by
  induction fields generalizing met draft with
  | nil => simp [setFields, knownNames]
  | cons field rest ih =>
    obtain ⟨name, value⟩ := field
    rw [setFields, List.foldlM_cons]
    by_cases hkey : name ∈ keys
    · have hnames : knownNames keys ((name, value) :: rest) = name :: knownNames keys rest := by
        simp [knownNames, hkey]
      by_cases hmet : name ∈ met
      · simp [hnames, hkey, hmet]
      · simp only [hnames, hmet, and_false, if_false, Except.bind_eq_ok_iff, ih, List.nodup_cons,
          List.mem_cons, not_or]
        grind
    · have hnames : knownNames keys ((name, value) :: rest) = knownNames keys rest := by
        simp [knownNames, hkey]
      simp only [hnames, hkey, false_and, if_false, Except.bind_eq_ok_iff, ih, List.mem_cons, not_or]
      have hne : ∀ other ∈ knownNames keys rest, other ≠ name := by
        rintro other hmem rfl
        exact hkey (of_decide_eq_true (List.mem_filter.mp hmem).2)
      grind

/-- An object is read as a draft if its known fields all differ in name and every field can be taken
into it. -/
theorem toDraft_obj_eq_ok_iff : (obj fields).toDraft keys set draft = .ok final ↔
    (knownNames keys fields).Nodup ∧ fields.foldlM set draft = .ok final := by
  simp [toDraft, setFields_eq_ok_iff]

end

/-- The value of a field that must not be missing. -/
def required {α : Type} : Option α → Except JsonError α
  | some value => .ok value
  | none => .error .mismatch

end Json

end SpvEnvelope
