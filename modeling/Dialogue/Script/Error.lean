/-! Why a script cannot be compiled. -/

namespace Dialogue

/-- The fault of a script, with the number of the line that is named for it. -/
inductive ScriptError where
  | empty
  | missingTag (line : Nat) (text : String)
  | emptyTag (line : Nat)
  | tooManyTags (line count : Nat)
  | missingOptionName (line : Nat)
  | unterminatedOption (name : String) (line : Nat)
  | emptyOption (name : String) (line : Nat)
  | unterminatedChoices (line : Nat)
  | expectedBranch (line : Nat) (found : String)
  | invalidThreshold (line : Nat) (option value : String)
  deriving Repr, DecidableEq

/-- The wording of the fault. -/
def ScriptError.message : ScriptError → String
  | empty => "script is empty"
  | missingTag line text => "line " ++ toString line ++ " has no tag: " ++ text
  | emptyTag line => "empty tag at line " ++ toString line
  | tooManyTags line count =>
      "line " ++ toString line ++ " carries " ++ toString count ++ " tags, at most 2 are allowed"
  | missingOptionName line => "option at line " ++ toString line ++ " has no name"
  | unterminatedOption name line =>
      "option '" ++ name ++ "' opened at line " ++ toString line ++ " is never closed with </>"
  | emptyOption name line =>
      "option '" ++ name ++ "' at line " ++ toString line ++ " has no choices"
  | unterminatedChoices line =>
      "choices block opened at line " ++ toString line ++ " is never closed with </>"
  | expectedBranch line found =>
      "expected a branch label at line " ++ toString line ++ ", found <" ++ found ++ ">"
  | invalidThreshold line option value =>
      "invalid threshold '" ++ value ++ "' for option '" ++ option ++ "' at line " ++ toString line

end Dialogue
