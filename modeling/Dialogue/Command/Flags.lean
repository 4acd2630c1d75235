import Dialogue.Command.Selections

/-! The flags that follow a script on the command line. -/

namespace Dialogue.Command

/-- One flag, with its value if it takes one. -/
inductive Flag where
  | json
  | debug
  | select (selections : List Nat)
  | lintConfig (path : String)
  deriving Repr, DecidableEq

/-- Why flags cannot be read. -/
inductive FlagError where
  | missingSelections
  | missingPath
  | badSelection (error : SelectionError)
  | unknown (argument : String)
  deriving Repr, DecidableEq

/-- The wording of the error. -/
def FlagError.message : FlagError → String
  | missingSelections => "--select needs a value"
  | missingPath => "--lint-config needs a file path"
  | badSelection error => error.message
  | unknown argument => "Unknown option '" ++ argument ++ "'"

/-- Reads flags from left to right. The argument after a flag that takes a value is the value,
whatever it looks like.
-/
def readFlags : List String → Except FlagError (List Flag)
  | [] => .ok []
  | "--json" :: rest => (readFlags rest).map (Flag.json :: ·)
  | "--debug" :: rest => (readFlags rest).map (Flag.debug :: ·)
  | ["--select"] => .error .missingSelections
  | "--select" :: value :: rest =>
      match readSelections value with
      | .error error => .error (.badSelection error)
      | .ok selections => (readFlags rest).map (Flag.select selections :: ·)
  | ["--lint-config"] => .error .missingPath
  | "--lint-config" :: path :: rest => (readFlags rest).map (Flag.lintConfig path :: ·)
  | argument :: _ => .error (.unknown argument)

/-- What flags amount to. -/
structure Options where
  selections : List Nat := []
  json : Bool := false
  debug : Bool := false
  lintConfig : Option String := none
  deriving Repr, DecidableEq

/-- The options after one more flag. A later value replaces an earlier one. -/
def Options.apply (options : Options) : Flag → Options
  | .json => { options with json := true }
  | .debug => { options with debug := true }
  | .select selections => { options with selections }
  | .lintConfig path => { options with lintConfig := some path }

/-- The options that arguments give. -/
def readOptions (arguments : List String) : Except FlagError Options :=
  (readFlags arguments).map fun flags => flags.foldl Options.apply {}

end Dialogue.Command
