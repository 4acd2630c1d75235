import Dialogue.Proofs.Script.Fidelity
import Dialogue.Proofs.Script.Tagging

/-! Lines of a text hold no line feed, so neither does anything that is compiled from them: every
text of a node is the content or a tag of some line.
-/

namespace Dialogue

/-- The text has no line feed. -/
def OneLine (text : String) : Prop :=
  '\n' ∉ text.toList

instance (text : String) : Decidable (OneLine text) :=
  inferInstanceAs (Decidable (_ ∉ _))

/-- Whose a beat is and what it holds. -/
def Beat.texts : Beat → List String
  | .scene content => [content]
  | .option name choices => name :: choices
  | .say speaker content => [speaker, content]
  | .think speaker content => [speaker, content]

/-- All texts that a node has from its script. -/
def Node.texts : Node → List String
  | .beat shown => shown.texts
  | .choice guards => guards.map Guard.option
  | .start | .ending | .dead | .empty => []

namespace Line

def texts (line : Line) : List String :=
  line.content :: line.tags

-----------------------------------------------------------------------------------------
-- From texts to lines
-----------------------------------------------------------------------------------------

/-- Decoding takes the tags and the content out of the text. -/
theorem oneLine_of_decode {number : Nat} {text : String} {line : Line}
    (decoded : decode number text = .ok line) (single : OneLine text)
    : ∀ part ∈ line.texts, OneLine part := by
  have within {part : List Char} (inside : part ⊆ text.toList)
      : OneLine (String.ofList (Text.trim part)) := by
    rw [OneLine, String.toList_ofList]
    exact fun member => single (inside (Text.mem_of_mem_trim member))
  obtain ⟨tags, tagged, -, -, -, rfl⟩ := decode_eq_ok_iff.mp decoded
  refine List.forall_mem_cons.mpr ⟨within fun _ => Text.mem_of_mem_afterLast, ?_⟩
  exact List.forall_mem_map.mpr fun tag member => within (tagged.subset tag member)

/-- Splitting a text takes its line feeds away, and trimming brings none back. -/
theorem oneLine_of_decodeAll {source : String} {lines : List Line}
    (decoded : decodeAll (Script.numberedLines source) = .ok lines)
    : ∀ line ∈ lines, ∀ part ∈ line.texts, OneLine part := by
  intro line member
  obtain ⟨index, here⟩ := List.mem_iff_getElem?.mp member
  obtain ⟨entry, there, decodes⟩ := decode_of_decodeAll decoded here
  refine oneLine_of_decode decodes ?_
  obtain ⟨⟨trimmed, number⟩, kept, rfl⟩ := List.mem_map.mp (List.mem_of_getElem? there)
  have within := List.fst_mem_of_mem_zipIdx (List.mem_filter.mp kept).1
  obtain ⟨piece, split, rfl⟩ := List.mem_map.mp within
  rw [OneLine, String.toList_ofList]
  exact fun member => Text.not_mem_of_mem_split split (Text.mem_of_mem_trim member)

-----------------------------------------------------------------------------------------
-- From lines to nodes
-----------------------------------------------------------------------------------------

section

variable {lines : List Line} (single : ∀ line ∈ lines, ∀ part ∈ line.texts, OneLine part)

include single

theorem oneLine_content {line : Line} (member : line ∈ lines) : OneLine line.content :=
  single line member _ List.mem_cons_self

theorem oneLine_tag {line : Line} (member : line ∈ lines) {tag : String} (tagged : tag ∈ line.tags)
    : OneLine tag :=
  single line member tag (List.mem_cons_of_mem _ tagged)

/-- The name of an option is the content or a tag of the line that opens its block. -/
theorem Heads.oneLine {line : Line} (member : line ∈ lines) {name : String}
    (heads : line.Heads name)
    : OneLine name := by
  rcases heads with ⟨-, rfl, -⟩ | tags
  · exact oneLine_content single member
  · exact oneLine_tag single member (by simp [tags])

/-- A choice is the content of a line, or its first tag where it has no content. -/
theorem oneLine_choice {line : Line} (member : line ∈ lines) : OneLine line.choice := by
  unfold choice
  split
  · unfold first?
    cases tags : line.tags with
    | nil => exact (by decide : OneLine "")
    | cons tag rest => exact oneLine_tag single member (by simp [tags])
  · exact oneLine_content single member

/-- What a line states is made of the contents and tags of lines, by cases on the statement. The
options of a choice are those that some lines open blocks for.
-/
theorem States.oneLine {declared : List String} (names : optionNames lines = .ok declared)
    {index : Nat} {line : Line} {node : Node} (here : lines[index]? = some line)
    (states : States lines declared index line node)
    : ∀ text ∈ node.texts, OneLine text := by
  have member := List.mem_of_getElem? here
  cases states with
  | beat tells shows =>
      have content := oneLine_content single member
      cases tells with
      | scene =>
          obtain rfl := Option.some.inj shows
          exact List.forall_mem_singleton.mpr content
      | say tags | think tags =>
          obtain rfl := Option.some.inj shows
          have speaker := oneLine_tag single member (tags ▸ List.mem_cons_self)
          exact List.forall_mem_cons.mpr ⟨speaker, List.forall_mem_singleton.mpr content⟩
      | option | ending | choices | dead | terminator => cases shows
  | option tells closes =>
      cases tells with
      | option heads =>
          refine List.forall_mem_cons.mpr ⟨heads.oneLine single member, List.forall_mem_map.mpr ?_⟩
          intro line inside
          exact oneLine_choice single (List.mem_of_mem_drop (List.mem_of_mem_take inside))
  | choices tells found =>
      refine List.forall_mem_map.mpr fun guard guarded => ?_
      have asked := (States.choices tells found).option_mem guard guarded
      obtain ⟨opening, opens, heads⟩ := (mem_iff_of_optionNames names).mp asked
      exact heads.oneLine single opens
  | ending => exact List.forall_mem_nil _

/-- No text in a graph that is compiled from such lines has a line feed, by cases on the node. -/
theorem oneLine_of_compile {graph : Graph} (compiled : (compile lines).outcome = .ok graph)
    (id : Nat)
    : ∀ text ∈ (graph.node id).texts, OneLine text := by
  obtain ⟨declared, names, stated⟩ := stated_of_compile compiled
  have fromLine (sourced : id ∈ graph.sourced) : ∀ text ∈ (graph.node id).texts, OneLine text := by
    obtain ⟨index, line, here, -, states⟩ := stated id sourced
    exact states.oneLine single names here
  cases found : graph.node id with
  | beat shown => exact found ▸ fromLine (Graph.mem_sourced_of_node (Or.inl ⟨shown, found⟩))
  | choice guards => exact found ▸ fromLine (Graph.mem_sourced_of_node (Or.inr ⟨guards, found⟩))
  | start | ending | dead | empty => exact List.forall_mem_nil _

end

end Line

/-- No text in a graph that is compiled from one text has a line feed. -/
theorem Script.oneLine_of_compileText {source : String} {graph : Graph}
    (h : (compileText source).outcome = .ok graph) (id : Nat)
    : ∀ text ∈ (graph.node id).texts, OneLine text := by
  obtain ⟨lines, decoded, compiled⟩ := compileText_eq_ok_iff.mp h
  exact Line.oneLine_of_compile (Line.oneLine_of_decodeAll decoded) compiled id

end Dialogue
