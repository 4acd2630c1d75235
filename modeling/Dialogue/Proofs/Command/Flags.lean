import Mathlib.Data.List.Perm.Basic
import Dialogue.Command.Flags
import Dialogue.Proofs.Command.Selections

/-! The grammar of flags: arguments are read exactly if they are one group after the other, a flag
and its value if it takes one, and what is refused is the first argument that starts no group.
-/

namespace Dialogue.Command

-----------------------------------------------------------------------------------------
-- Groups of arguments
-----------------------------------------------------------------------------------------

/-- The argument that a flag starts with. -/
def Flag.name : Flag → String
  | json => "--json"
  | debug => "--debug"
  | select _ => "--select"
  | lintConfig _ => "--lint-config"

/-- A group of arguments stands for a flag. The argument after a name that takes a value is the
value, whatever it looks like.
-/
inductive Means : (group : List String) → Flag → Prop
  | json : Means ["--json"] .json
  | debug : Means ["--debug"] .debug
  | select {value : String} {selections : List Nat} (read : readSelections value = .ok selections)
    : Means ["--select", value] (.select selections)
  | lintConfig (path : String) : Means ["--lint-config", path] (.lintConfig path)

/-- No group starts these arguments, with the error that says why. -/
inductive Refuses : (arguments : List String) → FlagError → Prop
  | missingSelections : Refuses ["--select"] .missingSelections
  | badSelection {value : String} {error : SelectionError} (rest : List String)
    (refused : readSelections value = .error error)
    : Refuses ("--select" :: value :: rest) (.badSelection error)
  | missingPath : Refuses ["--lint-config"] .missingPath
  | unknown {argument : String} (rest : List String)
    (unnamed : argument ∉ ["--json", "--debug", "--select", "--lint-config"])
    : Refuses (argument :: rest) (.unknown argument)

theorem Means.head? {group : List String} {flag : Flag} (means : Means group flag)
    : group.head? = some flag.name := by
  cases means <;> rfl

/-- A group in front of arguments is read first, by cases on the group. -/
theorem Means.readFlags_append {group : List String} {flag : Flag} (means : Means group flag)
    (rest : List String)
    : readFlags (group ++ rest) = (readFlags rest).map (flag :: ·) := by
  cases means with
  | json | debug | lintConfig => rfl
  | select read => simp [readFlags, read]

/-- A group stands for one flag, since one flag is read from it. -/
theorem Means.unique {group : List String} {flag other : Flag} (means : Means group flag)
    (otherMeans : Means group other)
    : flag = other := by
  have same := (means.readFlags_append []).symm.trans (otherMeans.readFlags_append [])
  exact (List.cons.inj (Except.ok.inj same)).1

/-- Groups in front of arguments are read first, by induction on them. -/
theorem readFlags_flatten_append {groups : List (List String)} {flags : List Flag}
    (each : List.Forall₂ Means groups flags) (rest : List String)
    : readFlags (groups.flatten ++ rest) = (readFlags rest).map (flags ++ ·) := by
  induction each with
  | nil =>
      rw [List.flatten_nil, List.nil_append]
      cases readFlags rest <;> rfl
  | cons means _ ih =>
      rw [List.flatten_cons, List.append_assoc, means.readFlags_append, ih]
      cases readFlags rest <;> rfl

theorem Refuses.readFlags_eq {arguments : List String} {error : FlagError}
    (refuses : Refuses arguments error)
    : readFlags arguments = .error error := by
  cases refuses with
  | missingSelections | missingPath => rfl
  | badSelection rest refused => simp [readFlags, refused]
  | unknown rest unnamed =>
      simp only [List.mem_cons, List.not_mem_nil, or_false, not_or] at unnamed
      simp [readFlags, unnamed]

/-- Arguments begin with groups, which are all of them or end where no group starts. -/
def Grouped (arguments : List String) : Prop :=
  ∃ groups flags rest,
    arguments = groups.flatten ++ rest
    ∧ List.Forall₂ Means groups flags
    ∧ (rest = [] ∨ ∃ error, Refuses rest error)

theorem Means.grouped_append {group : List String} {flag : Flag} (means : Means group flag)
    {rest : List String} (grouped : Grouped rest)
    : Grouped (group ++ rest) := by
  obtain ⟨groups, flags, others, rfl, each, stops⟩ := grouped
  exact ⟨group :: groups, flag :: flags, others, by simp, .cons means each, stops⟩

theorem Refuses.grouped {arguments : List String} {error : FlagError}
    (refuses : Refuses arguments error)
    : Grouped arguments :=
  ⟨[], [], arguments, rfl, .nil, Or.inr ⟨error, refuses⟩⟩

/-- All arguments are so, by induction along their reading. -/
theorem grouped (arguments : List String) : Grouped arguments := by
  induction arguments using readFlags.induct with
  | case1 => exact ⟨[], [], [], rfl, .nil, Or.inl rfl⟩
  | case2 rest ih => exact Means.json.grouped_append ih
  | case3 rest ih => exact Means.debug.grouped_append ih
  | case4 => exact Refuses.missingSelections.grouped
  | case5 value rest error refused => exact (Refuses.badSelection rest refused).grouped
  | case6 value rest selections read ih => exact (Means.select read).grouped_append ih
  | case7 => exact Refuses.missingPath.grouped
  | case8 path rest ih => exact (Means.lintConfig path).grouped_append ih
  | case9 argument rest noJson noDebug alone withValue last withPath =>
      refine (Refuses.unknown rest ?_).grouped
      cases rest <;> simp_all

/-- Flags are read exactly if the arguments are groups for them, one after the other. -/
theorem readFlags_eq_ok_iff {arguments : List String} {flags : List Flag}
    : readFlags arguments = .ok flags
      ↔ ∃ groups, arguments = groups.flatten ∧ List.Forall₂ Means groups flags := by
  constructor
  · intro read
    obtain ⟨groups, others, rest, rfl, each, rfl | ⟨error, refuses⟩⟩ := grouped arguments
    · rw [readFlags_flatten_append each] at read
      obtain rfl : others = flags := by simpa [readFlags, Except.map] using read
      exact ⟨groups, List.append_nil _, each⟩
    · rw [readFlags_flatten_append each, refuses.readFlags_eq] at read
      cases read
  · rintro ⟨groups, rfl, each⟩
    have read := readFlags_flatten_append each []
    rw [List.append_nil] at read
    rw [read, readFlags]
    exact congrArg _ (List.append_nil flags)

/-- An error is that of the first arguments that start no group. -/
theorem readFlags_eq_error_iff {arguments : List String} {error : FlagError}
    : readFlags arguments = .error error
      ↔ ∃ groups flags rest,
          arguments = groups.flatten ++ rest
          ∧ List.Forall₂ Means groups flags
          ∧ Refuses rest error := by
  constructor
  · intro failed
    obtain ⟨groups, flags, rest, rfl, each, rfl | ⟨other, refuses⟩⟩ := grouped arguments
    · rw [readFlags_flatten_append each] at failed
      cases failed
    · rw [readFlags_flatten_append each, refuses.readFlags_eq] at failed
      obtain rfl : other = error := Except.error.inj failed
      exact ⟨groups, flags, rest, rfl, each, refuses⟩
  · rintro ⟨groups, flags, rest, rfl, each, refuses⟩
    rw [readFlags_flatten_append each, refuses.readFlags_eq]
    rfl

-----------------------------------------------------------------------------------------
-- What flags amount to
-----------------------------------------------------------------------------------------

/-- The answers that a flag gives, if it gives any. -/
def Flag.selections? : Flag → Option (List Nat)
  | select selections => some selections
  | _ => none

/-- The lint configuration that a flag names, if it names one. -/
def Flag.lintConfig? : Flag → Option String
  | lintConfig path => some path
  | _ => none

/-- The options of flags: whether one of a kind is there, and the value of the last of a kind. -/
structure Amounts (flags : List Flag) (options : Options) : Prop where
  json : options.json = true ↔ Flag.json ∈ flags
  debug : options.debug = true ↔ Flag.debug ∈ flags
  selections : options.selections = (flags.filterMap Flag.selections?).getLast?.getD []
  lintConfig : options.lintConfig = (flags.filterMap Flag.lintConfig?).getLast?

/-- One more flag sets what it is for and leaves the rest, by cases on it. -/
theorem Amounts.apply {flags : List Flag} {options : Options} (amounts : Amounts flags options)
    (flag : Flag)
    : Amounts (flags ++ [flag]) (options.apply flag) := by
  obtain ⟨json, debug, selections, lintConfig⟩ := amounts
  cases flag <;>
    constructor <;>
    simp [Options.apply, Flag.selections?, Flag.lintConfig?, json, debug, selections, lintConfig]

/-- Flags amount to what applying them one after the other gives, by induction on them. -/
theorem amounts_foldl (flags : List Flag) : Amounts flags (flags.foldl Options.apply {}) := by
  induction flags using List.reverseRecOn with
  | nil => constructor <;> simp
  | append_singleton flags flag ih =>
      rw [List.foldl_concat]
      exact ih.apply flag

theorem Amounts.unique {flags : List Flag} {options other : Options}
    (amounts : Amounts flags options) (otherAmounts : Amounts flags other)
    : options = other := by
  obtain ⟨selections, json, debug, lintConfig⟩ := options
  obtain ⟨otherSelections, otherJson, otherDebug, otherLintConfig⟩ := other
  have json := Bool.eq_iff_iff.mpr (amounts.json.trans otherAmounts.json.symm)
  have debug := Bool.eq_iff_iff.mpr (amounts.debug.trans otherAmounts.debug.symm)
  have selections := amounts.selections.trans otherAmounts.selections.symm
  have lintConfig := amounts.lintConfig.trans otherAmounts.lintConfig.symm
  simp_all

-----------------------------------------------------------------------------------------
-- Reordering
-----------------------------------------------------------------------------------------

/-- The flags of a name, in their order. -/
def Flag.ofName (name : String) (flags : List Flag) : List Flag :=
  flags.filter fun flag => flag.name = name

theorem filterMap_ofName {α : Type} {value? : Flag → Option α} {name : String}
    (named : ∀ flag, flag.name ≠ name → value? flag = none) (flags : List Flag)
    : (Flag.ofName name flags).filterMap value? = flags.filterMap value? := by
  rw [Flag.ofName, List.filterMap_filter]
  refine List.filterMap_congr fun flag _ => ?_
  by_cases same : flag.name = name
  · simp [same]
  · simp [same, named flag same]

/-- What flags amount to depends only on the flags of each name, in their order. -/
theorem Amounts.of_ofName_eq {flags others : List Flag} {options : Options}
    (amounts : Amounts flags options)
    (same : ∀ name, Flag.ofName name others = Flag.ofName name flags)
    : Amounts others options := by
  have mem_iff (flag : Flag) : flag ∈ others ↔ flag ∈ flags := by
    have both := congrArg (flag ∈ ·) (same flag.name)
    simpa [Flag.ofName] using both
  have values {α : Type} {value? : Flag → Option α} (name : String)
      (named : ∀ flag, flag.name ≠ name → value? flag = none)
      : flags.filterMap value? = others.filterMap value? := by
    rw [← filterMap_ofName named flags, ← filterMap_ofName named others, same]
  exact {
    json := amounts.json.trans (mem_iff .json).symm
    debug := amounts.debug.trans (mem_iff .debug).symm
    selections := by
      rw [amounts.selections, values "--select"]
      rintro (_ | _ | _ | _) <;> simp [Flag.name, Flag.selections?]
    lintConfig := by
      rw [amounts.lintConfig, values "--lint-config"]
      rintro (_ | _ | _ | _) <;> simp [Flag.name, Flag.lintConfig?]
  }

/-- The groups of a name stand for the flags of the name, in the same order. -/
theorem forall₂_ofName {groups : List (List String)} {flags : List Flag}
    (each : List.Forall₂ Means groups flags) (name : String)
    : List.Forall₂ Means (groups.filter fun group => group.head? = some name)
        (Flag.ofName name flags) := by
  refine List.rel_filter (fun group flag means => ?_) each
  simp [means.head?]

/-- The same groups in an order that differs only for groups of different names. -/
structure Reorders (others groups : List (List String)) : Prop where
  perm : others.Perm groups
  within
    : ∀ name,
        (others.filter fun group => group.head? = some name)
        = groups.filter fun group => group.head? = some name

/-- Reordered groups stand for flags that agree for each name: groups stand for one flag each. -/
theorem Reorders.exists_flags {groups others : List (List String)} {flags : List Flag}
    (reorders : Reorders others groups) (each : List.Forall₂ Means groups flags)
    : ∃ reordered,
        List.Forall₂ Means others reordered
        ∧ ∀ name, Flag.ofName name reordered = Flag.ofName name flags := by
  obtain ⟨reordered, otherEach, -⟩ := List.perm_comp_forall₂ reorders.perm each
  have unique : Relator.RightUnique Means := fun _ _ _ means other => means.unique other
  refine ⟨reordered, otherEach, fun name => ?_⟩
  have named := forall₂_ofName otherEach name
  rw [reorders.within name] at named
  exact List.right_unique_forall₂' unique named (forall₂_ofName each name)

theorem readOptions_eq_ok_iff {arguments : List String} {options : Options}
    : readOptions arguments = .ok options
      ↔ ∃ groups flags,
          arguments = groups.flatten
          ∧ List.Forall₂ Means groups flags
          ∧ Amounts flags options := by
  unfold readOptions
  constructor
  · intro read
    obtain ⟨flags, readFlags, same⟩ := map_eq_ok_iff.mp read
    obtain ⟨groups, rfl, each⟩ := readFlags_eq_ok_iff.mp readFlags
    exact ⟨groups, flags, rfl, each, same ▸ amounts_foldl flags⟩
  · rintro ⟨groups, flags, rfl, each, amounts⟩
    rw [readFlags_eq_ok_iff.mpr ⟨groups, rfl, each⟩]
    exact congrArg _ ((amounts_foldl flags).unique amounts)

/-- Arguments are accepted exactly if they are groups one after the other, and then the options are
what the flags amount to, whatever the order of groups of different names. Otherwise the error is
that of the first arguments that start no group.
-/
theorem readOptions_exact
    : (∀ arguments options,
        readOptions arguments = .ok options
        ↔ ∃ groups flags,
            arguments = groups.flatten
            ∧ List.Forall₂ Means groups flags
            ∧ Amounts flags options)
      ∧ (∀ arguments error,
          readOptions arguments = .error error
          ↔ ∃ groups flags rest,
              arguments = groups.flatten ++ rest
              ∧ List.Forall₂ Means groups flags
              ∧ Refuses rest error)
      ∧ ∀ groups others flags,
          List.Forall₂ Means groups flags
          → Reorders others groups
          → readOptions others.flatten = readOptions groups.flatten := by
  refine ⟨fun _ _ => readOptions_eq_ok_iff, fun arguments error => ?_, ?_⟩
  · exact map_eq_error_iff.trans readFlags_eq_error_iff
  · intro groups others flags each reorders
    obtain ⟨reordered, otherEach, same⟩ := reorders.exists_flags each
    have amounts := amounts_foldl flags
    rw [readOptions_eq_ok_iff.mpr ⟨groups, flags, rfl, each, amounts⟩]
    exact readOptions_eq_ok_iff.mpr
      ⟨others, reordered, rfl, otherEach, amounts.of_ofName_eq same⟩

/-- Groups of arguments, of which one has a value that looks like a flag and two have the same name.
-/
def mixedGroups : List (List String) :=
  [["--lint-config", "--json"], ["--select", "1"], ["--debug"], ["--select", "0,2"]]

/-- The flags that the groups stand for. -/
def mixedFlags : List Flag :=
  [.lintConfig "--json", .select [1], .debug, .select [0, 2]]

/-- The groups are read, with the last of the two values, and read alike with the first of them put
last. Of other arguments the error is that of the first group that is none.
-/
theorem mixed_options_read
    : List.Forall₂ Means mixedGroups mixedFlags
      ∧ Amounts mixedFlags { selections := [0, 2], debug := true, lintConfig := some "--json" }
      ∧ readOptions ["--lint-config", "--json", "--select", "1", "--debug", "--select", "0,2"]
        = .ok { selections := [0, 2], debug := true, lintConfig := some "--json" }
      ∧ Reorders (mixedGroups.tail ++ mixedGroups.take 1) mixedGroups
      ∧ readOptions ["--select", "1", "--debug", "--select", "0,2", "--lint-config", "--json"]
        = .ok { selections := [0, 2], debug := true, lintConfig := some "--json" }
      ∧ List.Forall₂ Means [["--debug"]] [.debug]
      ∧ Refuses ["--select", "1,x", "--json"] (.badSelection ⟨"x", .notDigit⟩)
      ∧ readOptions ["--debug", "--select", "1,x", "--json"]
        = .error (.badSelection ⟨"x", .notDigit⟩) := by
  obtain ⟨accepted, failed, reordered⟩ := readOptions_exact
  have means : List.Forall₂ Means mixedGroups mixedFlags :=
    .cons (.lintConfig "--json") (.cons (.select (by decide +kernel))
      (.cons .debug (.cons (.select (by decide +kernel)) .nil)))
  have amounts
      : Amounts mixedFlags
          { selections := [0, 2], debug := true, lintConfig := some "--json" } := by
    constructor <;> decide
  have reorders : Reorders (mixedGroups.tail ++ mixedGroups.take 1) mixedGroups := by
    refine ⟨by decide +kernel, fun name => ?_⟩
    -- only groups of other names are passed
    by_cases moved : "--lint-config" = name
    · rw [← moved]
      decide +kernel
    · simp [mixedGroups, List.filter_cons, moved]
  have read := (accepted mixedGroups.flatten _).mpr ⟨mixedGroups, mixedFlags, rfl, means, amounts⟩
  have debug : List.Forall₂ Means [["--debug"]] [.debug] := .cons .debug .nil
  have refuses : Refuses ["--select", "1,x", "--json"] (.badSelection ⟨"x", .notDigit⟩) :=
    .badSelection ["--json"] (by decide +kernel)
  have readAgain := (reordered _ _ _ means reorders).trans read
  have refused := (failed _ _).mpr ⟨_, _, _, rfl, debug, refuses⟩
  exact ⟨means, amounts, read, reorders, readAgain, debug, refuses, refused⟩

end Dialogue.Command
