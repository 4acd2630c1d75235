import Dialogue.Graph.Splice
import Dialogue.Script.Layout
import Dialogue.Script.Reading

/-! Compiling scripts to dialogue graphs. -/

namespace Dialogue

namespace Line

/-- The graph of some lines, with its placeholders spliced out. -/
def compile (lines : List Line) : Logged ScriptError Graph := do
  if lines.isEmpty then
    throw .empty
  let declared ← Logged.ofExcept (optionNames lines)
  let outline ← readOutline lines declared
  let graph := outline.layout
  let spliced := graph.splice
  Logged.report
    [.spliced graph.splicedEdges, .compiled spliced.size spliced.reachable.length]
  return spliced

/-- Decodes texts in order, each with its line number. -/
def decodeAll (texts : List (Nat × String)) : Except ScriptError (List Line) :=
  texts.mapM fun (number, text) => decode number text

end Line

namespace Script

/-- A text without the blanks around it. -/
def trimmed (text : String) : String :=
  String.ofList (Text.trim text.toList)

/-- Compiles the lines of a script, which are numbered from 1. -/
def compile (lines : List String) : Logged ScriptError Graph := do
  let numbered := (lines.map trimmed).zipIdx 1
  Line.compile (← Logged.ofExcept (Line.decodeAll (numbered.map Prod.swap)))

/-- The lines of a text that are not blank, trimmed, with their numbers in the text. -/
def numberedLines (source : String) : List (Nat × String) :=
  let lines := (Text.split '\n' source.toList).map Text.trim
  ((lines.zipIdx 1).filter fun (line, _) => !line.isEmpty).map fun (line, number) =>
    (number, String.ofList line)

/-- Compiles the text of a script. -/
def compileText (source : String) : Logged ScriptError Graph := do
  Line.compile (← Logged.ofExcept (Line.decodeAll (numberedLines source)))

end Script

end Dialogue
