import VersionedTables.Document.Reader
import VersionedTables.Proofs.Document.Literals

/-!
# Documents that are read back

A document that was printed over many lines is read back as the value it spells
(`Document.parse?_pretty`). The way there has two halves, as the reader has: what is printed is cut
into the tokens of the document (`Document.scans_prettyAt`), whatever blanks stand between them, and
from these tokens the machine builds the value (`Document.run_tokens`).

All that is asked of the document is that it is *legible*: each of its numbers is read back.
-/

namespace VersionedTables

namespace Document

/-! ## Legible documents -/

mutual

/-- Every number in a document is read back. -/
def Legible : Document → Prop
  | .number value => value.ReadsBack
  | .array items => LegibleItems items
  | .object entries => LegibleEntries entries
  | .null | .bool _ | .string _ => True

/-- Every number in a list of documents is read back. -/
def LegibleItems : List Document → Prop
  | [] => True
  | item :: rest => Legible item ∧ LegibleItems rest

/-- Every number in a list of entries is read back. -/
def LegibleEntries : List (String × Document) → Prop
  | [] => True
  | (_, value) :: rest => Legible value ∧ LegibleEntries rest

end

/-! ## Values and tokens -/

mutual

/-- The value that the text of a document spells. -/
def toRaw : Document → RawDocument
  | .null => .null
  | .bool value => .bool value
  | .number value => .number (some value)
  | .string value => .string (some value)
  | .array items => .array (itemsToRaw items)
  | .object entries => .object (entriesToRaw entries)

/-- The values that the texts of documents spell. -/
def itemsToRaw : List Document → List RawDocument
  | [] => []
  | item :: rest => toRaw item :: itemsToRaw rest

/-- The values that the texts of entries spell, with their keys. -/
def entriesToRaw : List (String × Document) → List (Option String × RawDocument)
  | [] => []
  | (key, value) :: rest => (some key, toRaw value) :: entriesToRaw rest

end

/-- Tokens of several parts, with commas between them. -/
def parted : List (List JsonToken) → List JsonToken
  | [] => []
  | first :: rest => first ++ rest.flatMap (.comma :: ·)

mutual

/-- The tokens of a document. -/
def tokens : Document → List JsonToken
  | .null => [.null]
  | .bool value => [.bool value]
  | .number value => [.number (some value)]
  | .string value => [.string (some value)]
  | .array items => .openArray :: (parted (itemTokens items) ++ [.closeArray])
  | .object entries => .openObject :: (parted (entryTokens entries) ++ [.closeObject])

/-- The tokens of each of some documents. -/
def itemTokens : List Document → List (List JsonToken)
  | [] => []
  | item :: rest => tokens item :: itemTokens rest

/-- The tokens of each of some entries. -/
def entryTokens : List (String × Document) → List (List JsonToken)
  | [] => []
  | (key, value) :: rest => (.string (some key) :: .colon :: tokens value) :: entryTokens rest

end

end Document

/-! ## From text to tokens -/

namespace JsonToken

/-- A text is cut into the given tokens, whatever comes behind. -/
def Scans (chars : List Char) (tokens : List JsonToken) : Prop :=
  ∀ rest, Literal.Ends rest → scan (chars ++ rest) = (scan rest).map (tokens ++ ·)

variable {c : Char} {chars rest : List Char} {token : JsonToken}

/-- The first token is cut off. -/
theorem scan_next (chars : List Char) (hblank : isBlank c = false)
    (hnext : next? (c :: (chars ++ rest)) = some (token, chars.length + 1)) :
    scan (c :: (chars ++ rest)) = (scan rest).map (token :: ·) := by
  rw [scan, if_neg (by simp [hblank]), hnext]
  simp only [Option.bind_eq_bind, Option.bind_some, Option.pure_def, Nat.add_sub_cancel,
    List.drop_left]
  exact Option.map_eq_bind.symm

/-- A single character that is a token of its own. -/
theorem scan_mark (hblank : isBlank c = false) (hnext : next? (c :: rest) = some (token, 1)) :
    scan (c :: rest) = (scan rest).map (token :: ·) :=
  scan_next [] hblank hnext

theorem scan_blank (hblank : isBlank c = true) : scan (c :: rest) = scan rest := by
  rw [scan, if_pos hblank]

/-- Indentation is skipped. -/
theorem scan_newLine (level : Nat) : scan ((Document.newLine level).toList ++ rest) = scan rest := by
  rw [Document.newLine, String.toList_ofList, List.cons_append, scan_blank rfl]
  generalize 2 * level = count
  induction count with
  | zero => rfl
  | succ count ih => rw [List.replicate_succ, List.cons_append, scan_blank rfl, ih]

/-! ### Simple tokens -/

theorem scans_null : Scans "null".toList [.null] := by
  intro rest _
  change scan ('n' :: (['u', 'l', 'l'] ++ rest)) = _
  refine scan_next _ rfl ?_
  simp [next?, word?]

theorem scans_bool (value : Bool) : Scans (if value then "true" else "false").toList [.bool value] := by
  intro rest _
  cases value with
  | true =>
    change scan ('t' :: (['r', 'u', 'e'] ++ rest)) = _
    refine scan_next _ rfl ?_
    simp [next?, word?]
  | false =>
    change scan ('f' :: (['a', 'l', 's', 'e'] ++ rest)) = _
    refine scan_next _ rfl ?_
    simp [next?, word?]

theorem scan_quoted (text : String) (rest : List Char) :
    scan ((Document.quoted text).toList ++ rest) =
      (scan rest).map (.string (some text) :: ·) := by
  rw [Document.quoted, String.toList_ofList, List.cons_append, List.cons_append]
  refine scan_next _ rfl ?_
  rw [next?, List.append_assoc, List.singleton_append, Literal.text?_escape]
  simp [Nat.add_comm]

/-- A character that starts a number starts nothing else. -/
theorem next?_number {result : Option Number × Nat}
    (h : Literal.number? (c :: chars) = some result) :
    isBlank c = false ∧ next? (c :: chars) = some (.number result.1, result.2) := by
  have hhead := Literal.number?_head h
  have hstart : (c == '-' || c.isDigit) = true := by
    rcases hhead with rfl | hdigit
    · rfl
    · simp [hdigit]
  have hne {d : Char} (hd : (d == '-' || d.isDigit) = false) : c ≠ d := by
    rintro rfl
    rw [hstart] at hd
    cases hd
  refine ⟨by simp [isBlank, hne], ?_⟩
  rw [next?]
  · rw [if_pos hstart, h]
    rfl
  all_goals exact hne (by decide)

theorem scans_number {value : Number} (h : value.ReadsBack) :
    Scans (Document.numberText value).toList [.number (some value)] := by
  intro rest hends
  rw [Number.ReadsBack] at h
  generalize (Document.numberText value).toList = chars at h
  rcases chars with _ | ⟨c, chars⟩
  · cases h
  obtain ⟨hblank, hnext⟩ := next?_number (Literal.number?_append hends h)
  exact scan_next _ hblank hnext

/-! ### Blocks -/

open Document (newLine parted)

theorem ends_newLine (level : Nat) (rest : List Char) :
    Literal.Ends ((newLine level).toList ++ rest) := by
  rw [newLine, String.toList_ofList]
  exact Literal.ends_cons rfl (by decide) (by decide) (by decide) _

theorem parted_cons_cons (first second : List JsonToken) (more : List (List JsonToken)) :
    parted (first :: second :: more) = first ++ .comma :: parted (second :: more) := by
  simp [parted]

/-- A mark is a token of its own, and no number goes on with it. -/
structure Mark (text : String) (token : JsonToken) : Prop where
  scan_eq : ∀ rest, scan (text.toList ++ rest) = (scan rest).map (token :: ·)
  ends : ∀ rest, Literal.Ends (text.toList ++ rest)

theorem mark_comma : Mark "," .comma :=
  ⟨fun _ => scan_mark rfl rfl, fun _ => Literal.ends_cons rfl (by decide) (by decide) (by decide) _⟩

theorem mark_openArray : Mark "[" .openArray :=
  ⟨fun _ => scan_mark rfl rfl, fun _ => Literal.ends_cons rfl (by decide) (by decide) (by decide) _⟩

theorem mark_closeArray : Mark "]" .closeArray :=
  ⟨fun _ => scan_mark rfl rfl, fun _ => Literal.ends_cons rfl (by decide) (by decide) (by decide) _⟩

theorem mark_openObject : Mark "\x7b" .openObject :=
  ⟨fun _ => scan_mark rfl rfl, fun _ => Literal.ends_cons rfl (by decide) (by decide) (by decide) _⟩

theorem mark_closeObject : Mark "\x7d" .closeObject :=
  ⟨fun _ => scan_mark rfl rfl, fun _ => Literal.ends_cons rfl (by decide) (by decide) (by decide) _⟩

/-- Parts with commas and indentation between them are cut into their tokens with commas between
them. -/
theorem scans_parts {level : Nat} {parts : List String} {tokens : List (List JsonToken)}
    (h : List.Forall₂ (fun part => Scans part.toList) parts tokens) (hne : parts ≠ []) :
    Scans (String.intercalate ("," ++ newLine level) parts).toList (parted tokens) := by
  induction h with
  | nil => exact absurd rfl hne
  | @cons part ts parts tokens hpart hparts ih =>
    intro rest hends
    rcases hparts with _ | @⟨second, ts', more, tokens, hsecond, hmore⟩
    · rw [String.intercalate_singleton, hpart rest hends]
      simp [parted]
    · rw [String.intercalate_cons_cons]
      simp only [String.toList_append, List.append_assoc]
      rw [hpart _ (mark_comma.ends _), mark_comma.scan_eq, scan_newLine, ih (by simp) rest hends,
        parted_cons_cons]
      simp [Function.comp_def]

/-- Parts within brackets are cut into their tokens within brackets. -/
theorem scans_block {level : Nat} {left right : String} {opening closing : JsonToken}
    (hleft : Mark left opening) (hright : Mark right closing)
    {parts : List String} {tokens : List (List JsonToken)}
    (h : List.Forall₂ (fun part => Scans part.toList) parts tokens) :
    Scans (Document.block level left right parts).toList
      (opening :: (parted tokens ++ [closing])) := by
  intro rest hends
  rw [Document.block]
  split
  · next hempty =>
    rw [List.isEmpty_iff] at hempty
    subst hempty
    cases h
    rw [String.toList_append, List.append_assoc, hleft.scan_eq, hright.scan_eq]
    simp [parted, Function.comp_def]
  · next hne =>
    rw [List.isEmpty_iff] at hne
    simp only [String.toList_append, List.append_assoc]
    rw [hleft.scan_eq, scan_newLine, scans_parts h hne _ (ends_newLine _ _), scan_newLine,
      hright.scan_eq]
    simp [Function.comp_def]

end JsonToken

namespace Document

open JsonToken

mutual

/-- A legible document is cut into its tokens. -/
theorem scans_prettyAt (level : Nat) :
    (document : Document) → document.Legible → Scans (prettyAt level document).toList document.tokens
  | .null, _ => scans_null
  | .bool value, _ => scans_bool value
  | .number _, h => scans_number h
  | .string text, _ => fun rest _ => scan_quoted text rest
  | .array items, h => scans_block mark_openArray mark_closeArray (scans_prettyItems _ items h)
  | .object entries, h =>
    scans_block mark_openObject mark_closeObject (scans_prettyEntries _ entries h)

theorem scans_prettyItems (level : Nat) : (items : List Document) → LegibleItems items →
    List.Forall₂ (fun part => Scans part.toList) (prettyItems level items) (itemTokens items)
  | [], _ => .nil
  | item :: rest, ⟨hitem, hrest⟩ =>
    .cons (scans_prettyAt level item hitem) (scans_prettyItems level rest hrest)

theorem scans_prettyEntries (level : Nat) : (entries : List (String × Document)) →
    LegibleEntries entries →
    List.Forall₂ (fun part => Scans part.toList) (prettyEntries level entries)
      (entryTokens entries)
  | [], _ => .nil
  | (key, value) :: rest, ⟨hvalue, hrest⟩ => by
    refine .cons ?_ (scans_prettyEntries level rest hrest)
    intro behind hends
    have hcolon (chars : List Char) : scan (": ".toList ++ chars) =
        (scan chars).map (.colon :: ·) := by
      change scan (':' :: ' ' :: chars) = _
      rw [scan_mark rfl rfl, scan_blank rfl]
    simp only [String.toList_append, List.append_assoc]
    rw [scan_quoted, hcolon, scans_prettyAt level value hvalue behind hends]
    simp [Function.comp_def]

end

end Document

/-! ## From tokens to values -/

namespace Document

open JsonToken JsonMachine

/-- Tokens of further parts, each behind a comma. -/
def followers (parts : List (List JsonToken)) : List JsonToken :=
  parts.flatMap (.comma :: ·)

/-- A value starts in the same way behind the bracket of an array. -/
theorem run_firstItem (document : Document) (frames : List JsonFrame) (rest : List JsonToken) :
    (document.tokens ++ rest).foldlM step? ⟨frames, .firstItem⟩ =
      (document.tokens ++ rest).foldlM step? ⟨frames, .value⟩ := by
  cases document <;> rfl

mutual

/-- The machine builds the value of a document from its tokens. -/
theorem run_tokens : (document : Document) → (frames : List JsonFrame) →
    document.tokens.foldlM step? ⟨frames, .value⟩ = some ⟨frames, .after document.toRaw⟩
  | .null, _ => rfl
  | .bool _, _ => rfl
  | .number _, _ => rfl
  | .string _, _ => rfl
  | .array [], _ => rfl
  | .array (item :: rest), frames => by
    change ((item.tokens ++ followers (itemTokens rest)) ++ [JsonToken.closeArray]).foldlM step?
      ⟨.array [] :: frames, .firstItem⟩ = _
    rw [List.append_assoc, run_firstItem, List.foldlM_append, run_tokens item]
    exact run_items rest frames [] item.toRaw
  | .object [], _ => rfl
  | .object ((key, value) :: rest), frames => by
    change ((value.tokens ++ followers (entryTokens rest)) ++ [JsonToken.closeObject]).foldlM step?
      ⟨.object [] (some key) :: frames, .value⟩ = _
    rw [List.append_assoc, List.foldlM_append, run_tokens value]
    exact run_entries rest frames [] (some key) value.toRaw

/-- The machine goes on with the items of an array that is open. -/
theorem run_items : (items : List Document) → (frames : List JsonFrame) →
    (before : List RawDocument) → (value : RawDocument) →
    (followers (itemTokens items) ++ [JsonToken.closeArray]).foldlM step?
        ⟨.array before :: frames, .after value⟩ =
      some ⟨frames, .after (.array (before.reverse ++ value :: itemsToRaw items))⟩
  | [], frames, before, value => by
    change some _ = _
    simp [itemsToRaw]
  | item :: rest, frames, before, value => by
    change ((item.tokens ++ followers (itemTokens rest)) ++ [JsonToken.closeArray]).foldlM step?
      ⟨.array (value :: before) :: frames, .value⟩ = _
    rw [List.append_assoc, List.foldlM_append, run_tokens item]
    refine (run_items rest frames (value :: before) item.toRaw).trans ?_
    simp [itemsToRaw]

/-- The machine goes on with the entries of an object that is open. -/
theorem run_entries : (entries : List (String × Document)) → (frames : List JsonFrame) →
    (before : List (Option String × RawDocument)) → (key : Option String) →
    (value : RawDocument) →
    (followers (entryTokens entries) ++ [JsonToken.closeObject]).foldlM step?
        ⟨.object before key :: frames, .after value⟩ =
      some ⟨frames, .after (.object (before.reverse ++ (key, value) :: entriesToRaw entries))⟩
  | [], frames, before, key, value => by
    change some _ = _
    simp [entriesToRaw]
  | (next, document) :: rest, frames, before, key, value => by
    change ((document.tokens ++ followers (entryTokens rest)) ++ [JsonToken.closeObject]).foldlM step?
      ⟨.object ((key, value) :: before) (some next) :: frames, .value⟩ = _
    rw [List.append_assoc, List.foldlM_append, run_tokens document]
    refine (run_entries rest frames ((key, value) :: before) (some next) document.toRaw).trans ?_
    simp [entriesToRaw]

end

/-- A legible document is read back from its text. -/
theorem parse?_pretty {document : Document} (h : document.Legible) :
    RawDocument.parse? document.pretty = some document.toRaw := by
  have hscan : scan document.pretty.toList = some document.tokens := by
    have h := scans_prettyAt 0 document h [] Literal.ends_nil
    rw [List.append_nil] at h
    rw [pretty, h]
    simp [scan]
  rw [RawDocument.parse?, hscan]
  simp only [Option.bind_eq_bind, Option.bind_some, start, run_tokens]
  rfl

end Document

end VersionedTables
