import Dialogue.Json.Reader
import Dialogue.Proofs.Json.Members
import Dialogue.Proofs.Json.Tokens

/-! What is written is read back. Both layouts of a value stand for the same tokens, and the value
is built from these again.
-/

namespace Dialogue.Json

-----------------------------------------------------------------------------------------
-- The tokens of a value
-----------------------------------------------------------------------------------------

/-- A value without broken strings, whose numbers are all words for themselves. -/
inductive IsPlain : Json → Prop
  | null : IsPlain .null
  | bool (value : Bool) : IsPlain (.bool value)
  | natural (value : Nat) : IsPlain (.natural value)
  | number {literal : String} (solid : ∀ c ∈ literal.toList, ¬EndsWord c)
    (reads : wordValue? literal.toList = some (.number literal))
    : IsPlain (.number literal)
  | text (content : String) : IsPlain (.text content)
  | array {items : List Json} (each : ∀ item ∈ items, IsPlain item) : IsPlain (.array items)
  | object {members : List (String × Json)} (each : ∀ member ∈ members, IsPlain member.2)
    : IsPlain (.object members)

attribute [simp] IsPlain.null IsPlain.natural IsPlain.text

@[simp] theorem isPlain_array {items : List Json}
    : (array items).IsPlain ↔ ∀ item ∈ items, item.IsPlain :=
  ⟨fun | .array each => each, .array⟩

@[simp] theorem isPlain_object {members : List (String × Json)}
    : (object members).IsPlain ↔ ∀ member ∈ members, member.2.IsPlain :=
  ⟨fun | .object each => each, .object⟩

mutual

/-- The tokens that a value is written with, in either layout. -/
def toTokens : Json → List Token
  | .array items => .leftBracket :: ([.comma].intercalate (itemTokens items) ++ [.rightBracket])
  | .object members => .leftBrace :: ([.comma].intercalate (memberTokens members) ++ [.rightBrace])
  | json => [.value json]

def itemTokens : List Json → List (List Token)
  | [] => []
  | item :: rest => toTokens item :: itemTokens rest

def memberTokens : List (String × Json) → List (List Token)
  | [] => []
  | (name, value) :: rest => (.value (.text name) :: .colon :: toTokens value) :: memberTokens rest

end

theorem itemTokens_eq_map (items : List Json) : itemTokens items = items.map toTokens := by
  induction items with
  | nil => rfl
  | cons item rest ih => rw [itemTokens, ih, List.map_cons]

theorem memberTokens_eq_map (members : List (String × Json))
    : memberTokens members
      = members.map fun (name, value) => .value (.text name) :: .colon :: toTokens value := by
  induction members with
  | nil => rfl
  | cons member rest ih => rw [memberTokens, ih, List.map_cons]

-----------------------------------------------------------------------------------------
-- Parts in brackets
-----------------------------------------------------------------------------------------

/-- Parts with commas between them, each with spaces after it or without, stand for the tokens of
the parts with commas between them. By induction on the parts.
-/
theorem scans_intercalate {spaces : List Char} (blank : ∀ c ∈ spaces, isSpace c = true)
    {parts : List (List Char)} {tokens : List (List Token)} (each : List.Forall₂ Scans parts tokens)
    : Scans ((',' :: spaces).intercalate parts) ([.comma].intercalate tokens) := by
  induction each with
  | nil => exact scans_nil
  | cons scans later ih =>
      cases later with
      | nil => simpa using scans
      | cons next others =>
          rw [List.intercalate_cons_cons, List.intercalate_cons_cons, List.append_assoc,
            List.append_assoc]
          exact scans.append_mark (ih.spaces_append blank) rfl

/-- Parts in brackets stand for the tokens of the parts in brackets, whatever the spaces. -/
theorem scans_enclosed {opening closing : Char} {opens closes : Token}
    (starts : mark? opening = some opens) (ends : mark? closing = some closes)
    {before between after : List Char} (blankBefore : ∀ c ∈ before, isSpace c = true)
    (blankBetween : ∀ c ∈ between, isSpace c = true) (blankAfter : ∀ c ∈ after, isSpace c = true)
    {parts : List (List Char)} {tokens : List (List Token)} (each : List.Forall₂ Scans parts tokens)
    : Scans
        (opening :: (before ++ ((',' :: between).intercalate parts ++ (after ++ [closing]))))
        (opens :: ([.comma].intercalate tokens ++ [closes])) :=
  (((scans_intercalate blankBetween each).append scans_nil blankAfter ends).spaces_append
    blankBefore).mark_cons starts

section Layouts

variable (opening closing : Char) {opens closes : Token} (starts : mark? opening = some opens)
  (ends : mark? closing = some closes) {parts : List String} {tokens : List (List Token)}
  (each : List.Forall₂ (fun part partTokens => Scans part.toList partTokens) parts tokens)

include starts ends each

/-- On one line there are no spaces. -/
theorem scans_line
    : Scans
        (String.singleton opening ++ String.intercalate "," parts
          ++ String.singleton closing).toList
        (opens :: ([.comma].intercalate tokens ++ [closes])) := by
  have none : ∀ c ∈ ([] : List Char), isSpace c = true := List.forall_mem_nil _
  have scans := scans_enclosed starts ends none none none (List.forall₂_map_left_iff.mpr each)
  simpa [String.toList_intercalate] using scans

/-- Laid out over lines, parts have line feeds and spaces before, between and after them. -/
theorem scans_layOut (depth : Nat)
    : Scans (layOut depth (String.singleton opening) (String.singleton closing) parts).toList
        (opens :: ([.comma].intercalate tokens ++ [closes])) := by
  unfold layOut
  split
  · next absent =>
      -- Without parts the brackets stand on one line, where nothing is between them.
      obtain rfl := List.isEmpty_iff.mp absent
      have line := scans_line opening closing starts ends each
      simpa using line
  · have blank (depth : Nat) : ∀ c ∈ '\n' :: List.replicate (2 * depth) ' ', isSpace c = true := by
      rintro c (_ | ⟨_, member⟩)
      · rfl
      · obtain rfl := List.eq_of_mem_replicate member
        rfl
    have scans := scans_enclosed starts ends (blank (depth + 1)) (blank (depth + 1)) (blank depth)
      (List.forall₂_map_left_iff.mpr each)
    simpa [String.toList_intercalate] using scans

end Layouts

-----------------------------------------------------------------------------------------
-- Both layouts
-----------------------------------------------------------------------------------------

theorem compactItems_eq_map (items : List Json) : compactItems items = items.map compact := by
  induction items with
  | nil => rfl
  | cons item rest ih => rw [compactItems, ih, List.map_cons]

theorem compactMembers_eq_map (members : List (String × Json))
    : compactMembers members
      = members.map fun (name, value) => quote name ++ ":" ++ compact value := by
  induction members with
  | nil => rfl
  | cons member rest ih => rw [compactMembers, ih, List.map_cons]

theorem prettyItems_eq_map (depth : Nat) (items : List Json)
    : prettyItems depth items = items.map (prettyAt depth) := by
  induction items with
  | nil => rfl
  | cons item rest ih => rw [prettyItems, ih, List.map_cons]

theorem prettyMembers_eq_map (depth : Nat) (members : List (String × Json))
    : prettyMembers depth members
      = members.map fun (name, value) => quote name ++ ": " ++ prettyAt depth value := by
  induction members with
  | nil => rfl
  | cons member rest ih => rw [prettyMembers, ih, List.map_cons]

/-- Items stand for their tokens if each of them does. -/
theorem scans_items {write : Json → String} {items : List Json}
    (each : ∀ item ∈ items, Scans (write item).toList item.toTokens)
    : List.Forall₂ (fun part partTokens => Scans part.toList partTokens) (items.map write)
        (itemTokens items) := by
  rw [itemTokens_eq_map, List.forall₂_map_left_iff, List.forall₂_map_right_iff, List.forall₂_same]
  exact each

/-- Members stand for their tokens if the value of each of them does, with any spaces behind the
colon.
-/
theorem scans_members {write : Json → String} {members : List (String × Json)} {colon : String}
    {spaces : List Char} (shape : colon.toList = ':' :: spaces)
    (blank : ∀ c ∈ spaces, isSpace c = true)
    (each : ∀ member ∈ members, Scans (write member.2).toList member.2.toTokens)
    : List.Forall₂ (fun part partTokens => Scans part.toList partTokens)
        (members.map fun (name, value) => quote name ++ colon ++ write value)
        (memberTokens members) := by
  rw [memberTokens_eq_map, List.forall₂_map_left_iff, List.forall₂_map_right_iff, List.forall₂_same]
  rintro ⟨name, value⟩ member
  have value := (each _ member).spaces_append blank
  have scans := (scans_quote name).append_mark value (show mark? ':' = some .colon from rfl)
  simpa [shape] using scans

/-- A value without parts stands for itself. -/
theorem scans_scalar {json : Json} (plain : json.IsPlain)
    (whole : json.items? = none ∧ json.members? = none)
    : Scans (scalar json).toList [.value json] := by
  cases plain with
  | null => exact scans_word (by simp [scalar, EndsWord, isSpace, mark?]) rfl
  | bool value => cases value <;> exact scans_word (by simp [scalar, EndsWord, isSpace, mark?]) rfl
  | natural value => exact scans_natural value
  | number solid reads => exact scans_word solid reads
  | text content => exact scans_quote content
  | array => cases whole.1
  | object => cases whole.2

/-- A value on one line stands for its tokens, by induction on the value. -/
theorem IsPlain.scans_compact {json : Json} (plain : json.IsPlain)
    : Scans json.compact.toList json.toTokens := by
  induction plain with
  | array _ ih =>
      rw [compact, compactItems_eq_map, toTokens]
      exact scans_line '[' ']' rfl rfl (scans_items ih)
  | object _ ih =>
      rw [compact, compactMembers_eq_map, toTokens]
      exact scans_line '\x7b' '\x7d' rfl rfl (scans_members rfl (List.forall_mem_nil _) ih)
  | null | bool | natural | number | text =>
      exact scans_scalar (by constructor <;> assumption) ⟨rfl, rfl⟩

/-- A value laid out over lines stands for the same tokens, whatever its depth. -/
theorem IsPlain.scans_prettyAt {json : Json} (plain : json.IsPlain) (depth : Nat)
    : Scans (json.prettyAt depth).toList json.toTokens := by
  induction plain generalizing depth with
  | array _ ih =>
      rw [prettyAt, prettyItems_eq_map, toTokens]
      exact scans_layOut '[' ']' rfl rfl (scans_items fun item member => ih item member (depth + 1))
        depth
  | object _ ih =>
      rw [prettyAt, prettyMembers_eq_map, toTokens]
      have space : ∀ c ∈ [' '], isSpace c = true := List.forall_mem_singleton.mpr rfl
      exact scans_layOut '\x7b' '\x7d' rfl rfl
        (scans_members rfl space fun part member => ih part member (depth + 1)) depth
  | null | bool | natural | number | text =>
      exact scans_scalar (by constructor <;> assumption) ⟨rfl, rfl⟩

-----------------------------------------------------------------------------------------
-- Building
-----------------------------------------------------------------------------------------

/-- Its tokens build this value wherever a value is wanted, whatever follows. -/
def Builds (json : Json) : Prop :=
  ∀ stack rest,
    (json.toTokens ++ rest).foldlM advancePartial (.wantValue stack)
      = rest.foldlM advancePartial (.complete json stack)

/-- Items go to the array that is open, behind those that are done, once the first of them is read.
By induction on the others.
-/
theorem foldlM_items {start : Partial} {item : Json} {others : List Json} {done : List Json}
    {stack : List Frame}
    (begins : ∀ rest,
      (item.toTokens ++ rest).foldlM advancePartial start
        = rest.foldlM advancePartial (.complete item (.array done :: stack)))
    (later : ∀ json ∈ others, Builds json) (rest : List Token)
    : ([.comma].intercalate (itemTokens (item :: others)) ++ .rightBracket :: rest).foldlM
          advancePartial start
        = rest.foldlM advancePartial
            (.complete (.array (done.reverse ++ item :: others)) stack) := by
  induction others generalizing start item done with
  | nil =>
      rw [itemTokens, itemTokens, List.intercalate_singleton, begins, List.foldlM_cons]
      simp [advancePartial]
  | cons next others ih =>
      obtain ⟨builds, later⟩ := List.forall_mem_cons.mp later
      have tail := ih (builds (.array (item :: done) :: stack)) later
      rw [itemTokens] at tail
      rw [itemTokens, itemTokens, List.intercalate_cons_cons, List.append_assoc, List.append_assoc,
        begins, List.singleton_append, List.foldlM_cons]
      simpa [advancePartial] using tail

/-- No value starts with a bracket that closes an array, so the first item of an array is read like
any other.
-/
theorem foldlM_inArray (item : Json) (stack : List Frame) (rest : List Token)
    : (item.toTokens ++ rest).foldlM advancePartial (.inArray stack)
        = (item.toTokens ++ rest).foldlM advancePartial (.wantValue (.array [] :: stack)) := by
  cases item <;> rfl

/-- Members with names close as the object of them. -/
theorem closeObject_named (done : List (String × Json))
    : closeObject (done.map fun (name, value) => (some name, value)) = .object done.reverse := by
  rw [closeObject, mapM_eq_some_of_forall₂ (?_ : List.Forall₂ _ _ done.reverse)]
  rw [← List.map_reverse, List.forall₂_map_left_iff, List.forall₂_same]
  exact fun _ _ => rfl

/-- A member is read up to the end of its value. -/
theorem foldlM_member {value : Json} (builds : Builds value) (name : String)
    (done : List (Option String × Json)) (stack : List Frame) (rest : List Token)
    : ((.value (.text name) :: .colon :: value.toTokens) ++ rest).foldlM advancePartial
          (.wantName done stack)
        = rest.foldlM advancePartial (.complete value (.member done (some name) :: stack)) :=
  builds (.member done (some name) :: stack) rest

/-- Members go to the object that is open, behind those that are done. By induction on the others.
-/
theorem foldlM_members (name : String) {value : Json} {others : List (String × Json)}
    (builds : Builds value) (later : ∀ member ∈ others, Builds member.2)
    (done : List (String × Json)) (stack : List Frame) (rest : List Token)
    : ([.comma].intercalate (memberTokens ((name, value) :: others)) ++ .rightBrace :: rest).foldlM
          advancePartial
          (.wantName (done.map fun (name, value) => (some name, value)) stack)
        = rest.foldlM advancePartial
            (.complete (.object (done.reverse ++ (name, value) :: others)) stack) := by
  induction others generalizing name value done with
  | nil =>
      have closes := closeObject_named ((name, value) :: done)
      rw [List.map_cons] at closes
      rw [memberTokens, memberTokens, List.intercalate_singleton, foldlM_member builds,
        List.foldlM_cons]
      simp [advancePartial, closes]
  | cons next others ih =>
      obtain ⟨nextBuilds, later⟩ := List.forall_mem_cons.mp later
      have tail := ih next.1 nextBuilds later ((name, value) :: done)
      rw [memberTokens] at tail
      rw [memberTokens, memberTokens, List.intercalate_cons_cons, List.append_assoc,
        List.append_assoc, foldlM_member builds, List.singleton_append, List.foldlM_cons]
      simpa [advancePartial] using tail

/-- The tokens of a value build it, by induction on the value. -/
theorem IsPlain.builds {json : Json} (plain : json.IsPlain) : Builds json := by
  induction plain with
  | null | bool | natural | number | text => exact fun _ _ => rfl
  | @array items _ ih =>
      intro stack rest
      cases items with
      | nil => rfl
      | cons item others =>
          obtain ⟨builds, later⟩ := List.forall_mem_cons.mp ih
          have begins (rest : List Token) := (foldlM_inArray item stack rest).trans (builds _ rest)
          rw [toTokens, List.cons_append, List.append_assoc]
          exact foldlM_items begins later rest
  | @object members _ ih =>
      intro stack rest
      cases members with
      | nil => rfl
      | cons member others =>
          obtain ⟨builds, later⟩ := List.forall_mem_cons.mp ih
          rw [toTokens, List.cons_append, List.append_assoc]
          cases others <;> exact foldlM_members _ builds later [] stack rest

/-- What stands for the tokens of a plain value is read as this value. -/
theorem IsPlain.read?_eq {json : Json} (plain : json.IsPlain) {text : String}
    (scans : Scans text.toList json.toTokens)
    : read? text = some json := by
  have built := plain.builds [] []
  rw [List.append_nil] at built
  rw [read?, scans.tokens?, Option.bind_some, built]
  rfl

theorem IsPlain.read?_compact {json : Json} (plain : json.IsPlain)
    : read? json.compact = some json :=
  plain.read?_eq plain.scans_compact

theorem IsPlain.read?_pretty {json : Json} (plain : json.IsPlain)
    : read? json.pretty = some json :=
  plain.read?_eq (plain.scans_prettyAt 0)

end Dialogue.Json
