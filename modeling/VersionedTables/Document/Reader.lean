import VersionedTables.Document.Literal
import VersionedTables.Document.Raw

/-!
# Reading JSON

A text is cut into tokens, and the tokens are put together by a machine with a stack: the stack
holds the arrays and objects that are still open, the mode says what may come next. The machine
takes one token at a time, so nothing bounds how deep a text may nest, and a text is accepted
exactly when the machine has a finished value and no open container at its end.
-/

namespace VersionedTables

/-! ## Tokens -/

/-- A token of a JSON text. -/
inductive JsonToken where
  /-- An opening brace. -/
  | openObject
  /-- A closing brace. -/
  | closeObject
  /-- An opening bracket. -/
  | openArray
  /-- A closing bracket. -/
  | closeArray
  /-- A colon. -/
  | colon
  /-- A comma. -/
  | comma
  /-- The word `null`. -/
  | null
  /-- One of the words `true` and `false`. -/
  | bool (value : Bool)
  /-- A number literal. -/
  | number (value : Option Number)
  /-- A text literal. -/
  | string (value : Option String)
  deriving Repr

namespace JsonToken

/-- The blanks that may stand between tokens. -/
def isBlank (c : Char) : Bool :=
  c == ' ' || c == '\n' || c == '\t' || c == '\r'

/-- The word at the start of a text: its token and the characters taken. -/
def word? (chars : List Char) : Option (JsonToken × Nat) :=
  if "null".toList.isPrefixOf chars then some (.null, 4)
  else if "true".toList.isPrefixOf chars then some (.bool true, 4)
  else if "false".toList.isPrefixOf chars then some (.bool false, 5)
  else none

/-- The token at the start of a text that does not start with a blank, and the characters taken. -/
def next? : List Char → Option (JsonToken × Nat)
  | '\x7b' :: _ => some (.openObject, 1)
  | '\x7d' :: _ => some (.closeObject, 1)
  | '[' :: _ => some (.openArray, 1)
  | ']' :: _ => some (.closeArray, 1)
  | ':' :: _ => some (.colon, 1)
  | ',' :: _ => some (.comma, 1)
  | '"' :: rest => do
    let (text, width) ← Literal.text? rest
    return (.string text, 1 + width)
  | c :: rest =>
    if c == '-' || c.isDigit then do
      let (value, width) ← Literal.number? (c :: rest)
      return (.number value, width)
    else word? (c :: rest)
  | [] => none

/-- The tokens of a text. -/
def scan : List Char → Option (List JsonToken)
  | [] => some []
  | c :: rest =>
    if isBlank c then scan rest
    else do
      let (token, width) ← next? (c :: rest)
      let tokens ← scan (rest.drop (width - 1))
      return token :: tokens
termination_by chars => chars.length
decreasing_by
  · simp
  · simp only [List.length_drop, List.length_cons]
    omega

end JsonToken

/-! ## The machine -/

/-- A container that is still open, with what it holds so far, the latest first. -/
inductive JsonFrame where
  /-- An array. -/
  | array (items : List RawDocument)
  /-- An object, with the key whose value is being read. -/
  | object (entries : List (Option String × RawDocument)) (key : Option String)
  deriving Repr

/-- What may come next. -/
inductive JsonMode where
  /-- A value. -/
  | value
  /-- A value, or the end of the array that was just opened. -/
  | firstItem
  /-- A key of the object whose entries are given, the latest first. -/
  | key (entries : List (Option String × RawDocument))
  /-- A key, or the end of the object that was just opened. -/
  | firstKey
  /-- The colon behind a key. -/
  | colon (entries : List (Option String × RawDocument)) (key : Option String)
  /-- Whatever may stand behind the finished value. -/
  | after (value : RawDocument)
  deriving Repr

/-- The machine: what is open, the innermost first, and what may come next. -/
structure JsonMachine where
  /-- The open containers around the current place. -/
  frames : List JsonFrame
  /-- What may come next. -/
  mode : JsonMode
  deriving Repr

namespace JsonMachine

/-- The machine before the first token. -/
def start : JsonMachine := ⟨[], .value⟩

/-- Starts or completes a value with one token. -/
def beginValue? (frames : List JsonFrame) : JsonToken → Option JsonMachine
  | .openObject => some ⟨frames, .firstKey⟩
  | .openArray => some ⟨.array [] :: frames, .firstItem⟩
  | .null => some ⟨frames, .after .null⟩
  | .bool value => some ⟨frames, .after (.bool value)⟩
  | .number value => some ⟨frames, .after (.number value)⟩
  | .string value => some ⟨frames, .after (.string value)⟩
  | _ => none

/-- Goes on behind a finished value. -/
def continue? (value : RawDocument) : List JsonFrame → JsonToken → Option JsonMachine
  | .array items :: frames, .comma => some ⟨.array (value :: items) :: frames, .value⟩
  | .array items :: frames, .closeArray =>
    some ⟨frames, .after (.array (value :: items).reverse)⟩
  | .object entries key :: frames, .comma => some ⟨frames, .key ((key, value) :: entries)⟩
  | .object entries key :: frames, .closeObject =>
    some ⟨frames, .after (.object ((key, value) :: entries).reverse)⟩
  | _, _ => none

/-- Takes one token. -/
def step? (machine : JsonMachine) (token : JsonToken) : Option JsonMachine :=
  match machine.mode, token with
  | .value, token => beginValue? machine.frames token
  | .firstItem, .closeArray => some ⟨machine.frames.tail, .after (.array [])⟩
  | .firstItem, token => beginValue? machine.frames token
  | .key entries, .string key => some ⟨machine.frames, .colon entries key⟩
  | .firstKey, .string key => some ⟨machine.frames, .colon [] key⟩
  | .firstKey, .closeObject => some ⟨machine.frames, .after (.object [])⟩
  | .colon entries key, .colon => some ⟨.object entries key :: machine.frames, .value⟩
  | .after value, token => continue? value machine.frames token
  | _, _ => none

/-- The value of a machine that has read a whole text. -/
def result? : JsonMachine → Option RawDocument
  | ⟨[], .after value⟩ => some value
  | _ => none

end JsonMachine

/-- The value a JSON text spells. -/
def RawDocument.parse? (text : String) : Option RawDocument := do
  let tokens ← JsonToken.scan text.toList
  let machine ← tokens.foldlM JsonMachine.step? JsonMachine.start
  machine.result?

/-- The document a JSON text holds. -/
def Document.parse? (text : String) : Option Document := do
  let raw ← RawDocument.parse? text
  raw.toDocument? RawDocument.maxNesting

end VersionedTables
