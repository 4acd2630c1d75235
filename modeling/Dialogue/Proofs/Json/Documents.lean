import Dialogue.Graph.Document
import Dialogue.Proofs.Json.Writing
import Dialogue.Proofs.Play.Operations

/-! Documents are read back: a graph from its own document and from any that has further members in
its records, and a memory from the object of its answers. So are their texts, in either layout.
-/

namespace Dialogue

-----------------------------------------------------------------------------------------
-- Documents of graphs
-----------------------------------------------------------------------------------------

def Guard.fields (guard : Guard) : List (String × Json) :=
  [("option", .text guard.option), ("threshold", .natural guard.threshold)]

/-- The name that a beat has in documents. -/
def Beat.variant : Beat → String
  | .scene _ => "Scene"
  | .option _ _ => "Option"
  | .say _ _ => "Say"
  | .think _ _ => "Think"

def Beat.fields : Beat → List (String × Json)
  | .scene content => [("content", .text content)]
  | .option name choices => [("name", .text name), ("choices", .array (choices.map Json.text))]
  | .say speaker content => [("speaker", .text speaker), ("content", .text content)]
  | .think speaker content => [("speaker", .text speaker), ("content", .text content)]

/-- A guard may be written as this document: an object with its fields. -/
def Guard.WrittenAs (guard : Guard) (json : Json) : Prop :=
  json.HasFields guard.fields

/-- A node may be written as this document: its kind alone, or with the object of its content. -/
inductive Node.WrittenAs : Node → Json → Prop
  | start : WrittenAs .start (.text "Start")
  | ending : WrittenAs .ending (.text "End")
  | dead : WrittenAs .dead (.text "Dead")
  | empty : WrittenAs .empty (.text "Empty")
  | beat {shown : Beat} {content : Json} (fields : content.HasFields shown.fields)
    : WrittenAs (.beat shown) (.object [(shown.variant, content)])
  | choice {guards : List Guard} {items : List Json} {content : Json}
    (each : List.Forall₂ Guard.WrittenAs guards items)
    (fields : content.HasFields [("guards", .array items)])
    : WrittenAs (.choice guards) (.object [("Choice", content)])

/-- A slot may be written as this document. -/
def Slot.WrittenAs (slot : Slot) (json : Json) : Prop :=
  ∃ node,
    slot.node.WrittenAs node
    ∧ json.HasFields
        [("node", node), ("line", .natural slot.line),
          ("next", .array (slot.next.map Json.natural))]

/-- A graph may be written as this document: records with their fields and any further ones. -/
def Graph.WrittenAs (graph : Graph) (json : Json) : Prop :=
  ∃ slots,
    List.Forall₂ Slot.WrittenAs graph.slots slots
    ∧ json.HasFields [("slots", .array slots), ("root", .natural graph.root)]

-----------------------------------------------------------------------------------------
-- Writing
-----------------------------------------------------------------------------------------

theorem Guard.writtenAs_toJson (guard : Guard) : guard.WrittenAs guard.toJson :=
  Json.hasFields_object guard.fields

theorem Node.writtenAs_toJson (node : Node) : node.WrittenAs node.toJson := by
  cases node with
  | start => exact .start
  | ending => exact .ending
  | dead => exact .dead
  | empty => exact .empty
  | beat shown =>
      have := WrittenAs.beat (Json.hasFields_object shown.fields)
      cases shown <;> exact this
  | choice guards =>
      refine .choice ?_ (Json.hasFields_object _)
      rw [List.forall₂_map_right_iff, List.forall₂_same]
      exact fun guard _ => guard.writtenAs_toJson

theorem Slot.writtenAs_toJson (slot : Slot) : slot.WrittenAs slot.toJson :=
  ⟨slot.node.toJson, slot.node.writtenAs_toJson, Json.hasFields_object _⟩

theorem Graph.writtenAs_toJson (graph : Graph) : graph.WrittenAs graph.toJson := by
  refine ⟨graph.slots.map Slot.toJson, ?_, Json.hasFields_object _⟩
  rw [List.forall₂_map_right_iff, List.forall₂_same]
  exact fun slot _ => slot.writtenAs_toJson

-----------------------------------------------------------------------------------------
-- Reading
-----------------------------------------------------------------------------------------

/-- The thresholds of a node have 32 bits. -/
def Node.Fits (node : Node) : Prop :=
  ∀ guards, node = .choice guards → ∀ guard ∈ guards, guard.threshold < UInt32.size

/-- The numbers of a slot have 64 bits, and the thresholds in it 32. -/
structure Slot.Fits (slot : Slot) : Prop where
  node : slot.node.Fits
  line : slot.line < UInt64.size
  next : ∀ id ∈ slot.next, id < UInt64.size

structure Graph.Fits (graph : Graph) : Prop where
  slots : ∀ slot ∈ graph.slots, slot.Fits
  root : graph.root < UInt64.size

theorem Guard.WrittenAs.ofJson? {guard : Guard} {json : Json} (written : guard.WrittenAs json)
    (fits : guard.threshold < UInt32.size)
    : Guard.ofJson? json = some guard := by
  have fields : json.fields? ["option", "threshold"] = some (guard.fields.map Prod.snd) :=
    Json.HasFields.fields? written rfl (by decide)
  have threshold : (Json.natural guard.threshold).natural? maxThreshold = some guard.threshold :=
    Json.natural?_natural fits
  simp [Guard.ofJson?, fields, Guard.fields, threshold, Json.text?]

/-- The content of a beat is read back, by cases on the beat. -/
theorem Beat.ofJson?_of_hasFields {shown : Beat} {content : Json}
    (has : content.HasFields shown.fields)
    : Beat.ofJson? shown.variant content = some shown := by
  cases shown with
  | scene text =>
      have fields : content.select? ["content"] = some [.text text] := has.select? rfl (by decide)
      simp [Beat.ofJson?, Beat.variant, fields, Json.text?]
  | option name choices =>
      have fields
          : content.select? ["name", "choices"]
            = some [.text name, .array (choices.map Json.text)] :=
        has.select? rfl (by decide)
      have labels : (Json.array (choices.map Json.text)).listOf? Json.text? = some choices :=
        Json.listOf?_map fun _ _ => rfl
      simp [Beat.ofJson?, Beat.variant, fields, Json.text?, labels]
  | say speaker text | think speaker text =>
      have fields
          : content.select? ["speaker", "content"] = some [.text speaker, .text text] :=
        has.select? rfl (by decide)
      simp [Beat.ofJson?, Beat.variant, fields, Json.text?]

theorem Node.ofJson?_object (kind : String) (members : List (String × Json))
    : Node.ofJson? (.object [(kind, .object members)]) = Node.ofContent? kind (.object members) :=
  rfl

/-- A node is read back from any of its documents, by cases on the document. -/
theorem Node.WrittenAs.ofJson? {node : Node} {json : Json} (written : node.WrittenAs json)
    (fits : node.Fits)
    : Node.ofJson? json = some node := by
  cases written with
  | start | ending | dead | empty => rfl
  | @beat shown content has =>
      have read := Beat.ofJson?_of_hasFields has
      obtain ⟨members, rfl, -⟩ := has
      rw [Node.ofJson?_object]
      cases shown <;> exact congrArg (Option.map Node.beat) read
  | @choice guards items content each has =>
      have fields : content.select? ["guards"] = some [.array items] := has.select? rfl (by decide)
      have read : (Json.array items).listOf? Guard.ofJson? = some guards :=
        Json.listOf?_array each fun guard member _ written =>
          written.ofJson? (fits _ rfl guard member)
      obtain ⟨members, rfl, -⟩ := has
      rw [Node.ofJson?_object]
      simp [Node.ofContent?, fields, read]

/-- A slot is read back from any of its documents. -/
theorem Slot.WrittenAs.ofJson? {slot : Slot} {json : Json} (written : slot.WrittenAs json)
    (fits : slot.Fits)
    : Slot.ofJson? json = some slot := by
  obtain ⟨node, nodeWritten, has⟩ := written
  have fields
      : json.fields? ["node", "line", "next"]
        = some [node, .natural slot.line, .array (slot.next.map Json.natural)] :=
    has.fields? rfl (by decide)
  have line : (Json.natural slot.line).natural? maxIndex = some slot.line :=
    Json.natural?_natural fits.line
  have next : (Json.array (slot.next.map Json.natural)).listOf? (Json.natural? maxIndex)
      = some slot.next :=
    Json.listOf?_map fun id member => Json.natural?_natural (fits.next id member)
  simp [Slot.ofJson?, fields, nodeWritten.ofJson? fits.node, line, next]

/-- A graph is read back from any of its documents. -/
theorem Graph.WrittenAs.ofJson? {graph : Graph} {json : Json} (written : graph.WrittenAs json)
    (fits : graph.Fits)
    : Graph.ofJson? json = some graph := by
  obtain ⟨items, each, has⟩ := written
  have fields
      : json.fields? ["slots", "root"] = some [.array items, .natural graph.root] :=
    has.fields? rfl (by decide)
  have root : (Json.natural graph.root).natural? maxIndex = some graph.root :=
    Json.natural?_natural fits.root
  have read : (Json.array items).listOf? Slot.ofJson? = some graph.slots :=
    Json.listOf?_array each fun slot member _ written => written.ofJson? (fits.slots slot member)
  simp [Graph.ofJson?, fields, read, root]

-----------------------------------------------------------------------------------------
-- Documents of memories
-----------------------------------------------------------------------------------------

namespace Memory

/-- The answers of a memory have 64 bits. -/
def Fits (memory : Memory) : Prop :=
  ∀ name index, memory.get? name = some index → index < UInt64.size

/-- Entries that are put into a memory one after the other replace its own, the later ones the
earlier ones. By induction on them.
-/
theorem entry?_foldl_put (entries : List (String × Option Nat)) (memory : Memory) (name : String)
    : entry? (entries.foldl (fun memory (name, answer) => memory.put name answer) memory) name
        = (entries.reverse.lookup name).or (memory.entry? name) := by
  induction entries generalizing memory with
  | nil => rfl
  | cons first rest ih =>
      obtain ⟨other, answer⟩ := first
      rw [List.foldl_cons, ih, entry?_put, List.reverse_cons, List.lookup_append, Option.or_assoc,
        lookup_cons]
      by_cases same : name = other <;> simp [same]

/-- A memory is told by what looking names up in it gives. -/
theorem ext_of_entry? {left right : Memory} (same : ∀ name, left.entry? name = right.entry? name)
    : left = right := by
  apply ext_of_mem_entries
  rintro ⟨name, answer⟩
  rw [mem_entries_iff, mem_entries_iff, same]

/-- Putting its entries into an empty memory makes the memory, as no name has two of them. -/
theorem foldl_put_entries (memory : Memory)
    : memory.entries.foldl (fun memory (name, answer) => memory.put name answer) empty
        = memory := by
  apply ext_of_entry?
  intro name
  have distinct : (memory.entries.reverse.map Prod.fst).Nodup := by
    rw [List.map_reverse]
    exact List.nodup_reverse.mpr memory.nodup_names
  rw [entry?_foldl_put, show empty.entry? name = none from rfl, Option.or_none]
  ext answer
  rw [lookup_eq_some_iff_mem distinct, List.mem_reverse, mem_entries_iff]

theorem answerOfJson?_toJson {answer : Option Nat}
    (fits : ∀ index, answer = some index → index < UInt64.size)
    : answerOfJson? (answerToJson answer) = some answer := by
  cases answer with
  | none => rfl
  | some index => exact congrArg (Option.map some) (Json.natural?_natural (fits index rfl))

/-- A memory is read back from its document, entry by entry. -/
theorem ofJson?_toJson {memory : Memory} (fits : memory.Fits)
    : ofJson? memory.toJson = some memory := by
  rw [ofJson?, toJson, Json.members?, Option.bind_eq_bind, Option.bind_some,
    mapM_eq_some_of_forall₂ (?_ : List.Forall₂ _ _ memory.entries)]
  · exact congrArg some memory.foldl_put_entries
  · rw [List.forall₂_map_left_iff, List.forall₂_same]
    rintro ⟨name, answer⟩ member
    have answered : memory.get? name = answer := by
      rw [get?, mem_entries_iff.mp member]
      rfl
    have known := answerOfJson?_toJson fun index given => fits name index (answered.trans given)
    exact congrArg (Option.map (name, ·)) known

/-- The document of a memory has the last answer of every option that it knows of. -/
theorem member?_toJson (memory : Memory) (name : String)
    : memory.toJson.member? name = (memory.entry? name).map answerToJson := by
  have distinct
      : ((memory.entries.map fun (name, answer) => (name, answerToJson answer)).reverse.map
          Prod.fst).Nodup := by
    rw [List.map_reverse, List.nodup_reverse, List.map_map]
    exact memory.nodup_names
  ext json
  rw [Json.member?, toJson, Json.members?, Option.bind_some, lookup_eq_some_iff_mem distinct,
    List.mem_reverse, List.mem_map, Option.map_eq_some_iff]
  constructor
  · rintro ⟨⟨other, answer⟩, member, same⟩
    obtain ⟨rfl, rfl⟩ := Prod.mk.inj same
    exact ⟨answer, mem_entries_iff.mp member, rfl⟩
  · rintro ⟨answer, known, rfl⟩
    exact ⟨(name, answer), mem_entries_iff.mpr known, rfl⟩

end Memory

-----------------------------------------------------------------------------------------
-- Texts
-----------------------------------------------------------------------------------------

@[simp] theorem Guard.isPlain_toJson (guard : Guard) : guard.toJson.IsPlain := by
  simp [toJson]

@[simp] theorem Node.isPlain_toJson (node : Node) : node.toJson.IsPlain := by
  cases node with
  | start | ending | dead | empty => exact .text _
  | beat shown => cases shown <;> simp [toJson]
  | choice guards => simp [toJson]

@[simp] theorem Slot.isPlain_toJson (slot : Slot) : slot.toJson.IsPlain := by
  simp [toJson]

theorem Graph.isPlain_toJson (graph : Graph) : graph.toJson.IsPlain := by
  simp [toJson]

theorem Memory.isPlain_toJson (memory : Memory) : memory.toJson.IsPlain := by
  refine Json.isPlain_object.mpr (List.forall_mem_map.mpr ?_)
  rintro ⟨name, _ | index⟩ _
  · exact .null
  · exact .natural index

/-- A document is read as this value, itself and from its text in either layout. -/
structure Json.ReadsAs {α : Type} (json : Json) (read : Json → Option α) (value : α) : Prop where
  direct : read json = some value
  compact : (read? json.compact).bind read = some value
  pretty : (read? json.pretty).bind read = some value

theorem Json.IsPlain.readsAs {α : Type} {json : Json} (plain : json.IsPlain)
    {read : Json → Option α} {value : α} (reads : read json = some value)
    : json.ReadsAs read value where
  direct := reads
  compact := by rw [plain.read?_compact, Option.bind_some, reads]
  pretty := by rw [plain.read?_pretty, Option.bind_some, reads]

/-- Documents are read back, as values and as texts: every graph from its own document and from any
that has its fields in another order or further fields in its records, and every memory from the
object that has an index or null for each of its options.
-/
theorem documents_read_back
    : (∀ graph : Graph,
        graph.Fits
        → graph.toJson.ReadsAs Graph.ofJson? graph
          ∧ graph.WrittenAs graph.toJson
          ∧ ∀ json,
              graph.WrittenAs json
              → Graph.ofJson? json = some graph
                ∧ (json.IsPlain → json.ReadsAs Graph.ofJson? graph))
      ∧ ∀ memory : Memory,
          (∀ name, memory.toJson.member? name = (memory.entry? name).map Memory.answerToJson)
          ∧ (memory.Fits → memory.toJson.ReadsAs Memory.ofJson? memory) := by
  refine ⟨fun graph fits => ⟨?_, graph.writtenAs_toJson, fun json written => ?_⟩,
    fun memory => ⟨memory.member?_toJson, fun fits => ?_⟩⟩
  · exact graph.isPlain_toJson.readsAs (graph.writtenAs_toJson.ofJson? fits)
  · exact ⟨written.ofJson? fits, fun plain => plain.readsAs (written.ofJson? fits)⟩
  · exact memory.isPlain_toJson.readsAs (Memory.ofJson?_toJson fits)

/-- The largest numbers are read back, those of a graph from a document with a further field in
every record.
-/
theorem largest_numbers_read_back
    : Json.ReadsAs
        (.object [
          ("slots", .array [.object [
            ("node", .object [("Choice", .object [
              ("note", .null),
              ("guards", .array [.object [
                ("option", .text "mood"),
                ("threshold", .natural 4294967295),
                ("hint", .null)]])])]),
            ("column", .natural 3),
            ("line", .natural 18446744073709551615),
            ("next", .array [.natural 18446744073709551615])]]),
          ("root", .natural 18446744073709551615),
          ("version", .text "2")])
        Graph.ofJson?
        ⟨[⟨.choice [⟨"mood", 4294967295⟩], 18446744073709551615, [18446744073709551615]⟩],
          18446744073709551615⟩
      ∧ Json.ReadsAs
          (Memory.toJson (Memory.empty.record "mood" 18446744073709551615))
          Memory.ofJson?
          (Memory.empty.record "mood" 18446744073709551615) := by
  refine ⟨((documents_read_back.1 _ ⟨?_, by decide⟩).2.2 _ ?_).2 (by simp),
    (documents_read_back.2 _).2 ?_⟩
  · refine List.forall_mem_singleton.mpr ⟨?_, by decide, by decide⟩
    rintro _ ⟨⟩
    decide
  · refine ⟨_, ?_, _, rfl, .refl _⟩
    refine .cons ⟨_, ?_, _, rfl, .refl _⟩ .nil
    refine .choice ?_ ⟨_, rfl, .refl _⟩
    exact .cons ⟨_, rfl, .refl _⟩ .nil
  · intro name index answered
    rw [Memory.get?_record] at answered
    split at answered <;> cases answered
    decide

end Dialogue
