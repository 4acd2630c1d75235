import Dialogue.Json.Basic
import Dialogue.Log.Event
import Dialogue.Text.Blank

/-! Which messages are let through to the log, and how they are written there. -/

namespace Dialogue

namespace Level

def all : List Level :=
  [.error, .warn, .info, .debug, .trace]

/-- The place of a level among all. -/
def rank : Level → Nat
  | error => 0
  | warn => 1
  | info => 2
  | debug => 3
  | trace => 4

/-- The name of a level in settings. -/
def name : Level → String
  | error => "error"
  | warn => "warn"
  | info => "info"
  | debug => "debug"
  | trace => "trace"

/-- The name of a level in the log. -/
def mark : Level → String
  | error => "ERROR"
  | warn => "WARN"
  | info => "INFO"
  | debug => "DEBUG"
  | trace => "TRACE"

def ofName? (name : String) : Option Level :=
  all.find? fun level => level.name = name

/-- The level that a text names, whatever blanks stand around it and whatever the case of its
letters, which are ASCII letters in all names.
-/
def ofText? (text : String) : Option Level :=
  ofName? (String.ofList ((Text.trim text.toList).map Char.toLower))

end Level

namespace Category

def name : Category → String
  | parser => "Parser"
  | engine => "Engine"
  | flow => "Flow"

def all : List Category :=
  [engine, flow, parser]

def ofName? (name : String) : Option Category :=
  all.find? fun category => category.name = name

/-- The category of a message by the end of the path that it is sent to. -/
def ofTarget (target : String) : Category :=
  if "parser".toList.isSuffixOf target.toList then parser
  else if "flow".toList.isSuffixOf target.toList then flow
  else engine

end Category

/-- What the log takes. -/
structure LogFilter where
  enabled : Bool
  level : Level
  categories : List Category
  deriving Repr, DecidableEq

namespace LogFilter

/-- Takes all categories when a value is set, down to the level that it names or else to
debugging; without a value the log is off.
-/
def ofSetting (value : Option String) : LogFilter :=
  ⟨value.isSome, (value.bind Level.ofText?).getD .debug, Category.all⟩

/-- Takes all categories down to a level. -/
def upTo (level : Level) : LogFilter :=
  ⟨true, level, Category.all⟩

/-- Whether a message of this level and category gets through. -/
def admits (filter : LogFilter) (level : Level) (category : Category) : Bool :=
  filter.enabled && level.rank ≤ filter.level.rank && filter.categories.contains category

/-- The filter of a document. -/
def ofJson? (json : Json) : Option LogFilter := do
  let [enabled, level, categories] ← json.fields? ["enabled", "level", "categories"] | none
  return {
    enabled := ← enabled.bool?
    level := ← level.bareVariant?.bind Level.ofName?
    categories := ← categories.listOf? fun item => item.bareVariant?.bind Category.ofName?
  }

end LogFilter

/-- An event as a line of the log. The category takes ten places. -/
def Event.render (event : Event) : String :=
  let category := event.category.name
  "[" ++ event.level.mark ++ "] " ++ category
    ++ String.ofList (List.replicate (10 - category.length) ' ') ++ " " ++ event.message

/-- The log of some events, one line each. -/
def LogFilter.log (filter : LogFilter) (events : List Event) : String :=
  let admitted := events.filter fun event => filter.admits event.level event.category
  String.join (admitted.map fun event => event.render ++ "\n")

end Dialogue
