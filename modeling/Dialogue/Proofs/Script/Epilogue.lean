import Dialogue.Proofs.Script.Agreement
import Dialogue.Proofs.Script.Spelling

/-! What stands behind the end of a dialogue makes no difference: the blocks that are looked for in
front of the end are closed in front of it, so only the options that are declared behind it matter.
-/

namespace Dialogue

namespace Line

/-- Lines that are put behind a closed scope leave the outline as it is, if they have headers with
names alone, all of them of options that are declared already.
-/
theorem Outlines.append {lines more : List Line} {scope : Scope} (outlines : Outlines lines scope)
    (closed : scope.isClosed = true) (few : ∀ line ∈ lines ++ more, line.FewTags)
    (named : ∀ line ∈ more, ¬ line.Nameless)
    (opened : ∀ name, Declares more name → Declares lines name)
    : Outlines (lines ++ more) scope := by
  obtain @⟨declared, reading, someLine, names, reads⟩ := outlines
  rw [Scope.isClosed_settle] at closed
  have namedBefore := not_nameless_of_optionNames
    (fun line member => few line (List.mem_append_left more member)) names
  obtain ⟨others, again⟩ : ∃ others, optionNames (lines ++ more) = .ok others := by
    refine exists_optionNames few fun line member => ?_
    rcases List.mem_append.mp member with before | behind
    · exact namedBefore line before
    · exact named line behind
  have same (name : String) : name ∈ others ↔ name ∈ declared := by
    have either : Declares (lines ++ more) name ↔ Declares lines name ∨ Declares more name := by
      simp only [Declares, List.mem_append, or_and_right, exists_or]
    exact (mem_iff_of_optionNames again).trans
      (either.trans ((or_iff_left_of_imp (opened name)).trans (mem_iff_of_optionNames names).symm))
  have start := contained_whole lines declared
  obtain ⟨-, upTo, -⟩ := reads.sourceLines start
  have agree : AgreeOn lines (lines ++ more) 0 reading.cursor := fun index _ before =>
    List.getElem?_append_left (Nat.lt_of_lt_of_le before upTo)
  have ends : EndsAlike lines (lines ++ more) lines.length (lines ++ more).length reading :=
    Or.inl ⟨closed, Nat.le_trans upTo (by simp)⟩
  have readsMore := (reads.of_agreeOn start agree ends).of_names same
  exact .intro (List.append_ne_nil_of_left_ne_nil someLine more) again readsMore

end Line

namespace Script

/-- The script is accepted, and its top-level scope is closed by a tag. -/
def Closed (texts : List String) : Prop :=
  ∃ lines scope, DecodesTo texts lines ∧ Line.Outlines lines scope ∧ scope.isClosed = true

/-- Texts behind the end of a dialogue make no difference to the graph, whatever blocks they open or
close, if each of them can be decoded, none is a header without a name, and all options that they
open are opened in front of them as well.
-/
theorem Closed.compile_append {texts more : List String} (closed : Closed texts)
    (readable : ∀ text ∈ more, ∃ line, Spells text line ∧ ¬ line.Nameless)
    (opened : ∀ text ∈ more, ∀ name, Opens text name → ∃ earlier ∈ texts, Opens earlier name)
    : ∃ graph,
        (compile texts).outcome = .ok graph ∧ (compile (texts ++ more)).outcome = .ok graph := by
  obtain ⟨lines, scope, decodes, outlines, closed⟩ := closed
  obtain ⟨spelled, numbers⟩ := decodesTo_iff.mp decodes
  obtain ⟨others, spelledMore, numbersMore⟩ :=
    exists_spelled (fun text member => (readable text member).imp fun _ => And.left)
      (1 + texts.length)
  have decodesAll : DecodesTo (texts ++ more) (lines ++ others) := by
    refine decodesTo_iff.mpr ⟨List.rel_append spelled spelledMore, ?_⟩
    rw [List.map_append, numbers, numbersMore, List.range'_append_1, List.length_append]
  have named : ∀ line ∈ others, ¬ line.Nameless := by
    intro line member nameless
    obtain ⟨text, inside, spells⟩ := exists_text_of_mem spelledMore line member
    obtain ⟨other, again, filled⟩ := readable text inside
    rw [again.unique spells] at nameless
    exact filled nameless
  have declared (name : String) (behind : Line.Declares others name)
      : Line.Declares lines name := by
    obtain ⟨text, member, opens⟩ := (declares_iff spelledMore).mp behind
    exact (declares_iff spelled).mpr (opened text member name opens)
  have outlinesAll := outlines.append closed decodesAll.fewTags named declared
  refine ⟨scope.layout.splice, ?_, ?_⟩
  · rw [decodes.outcome_compile]
    exact Line.compile_eq_ok_iff.mpr ⟨scope, outlines, rfl⟩
  · rw [decodesAll.outcome_compile]
    exact Line.compile_eq_ok_iff.mpr ⟨scope, outlinesAll, rfl⟩

/-- A script with an option and a block, behind which the dialogue ends. -/
def endedTexts : List String :=
  ["<option>pick", "<a>A", "</>", "<choices>", "<pick,1>", "</>", "<END>"]

def endedLines : List Line :=
  [⟨1, ["option"], "pick"⟩, ⟨2, ["a"], "A"⟩, ⟨3, ["/"], ""⟩, ⟨4, ["choices"], ""⟩,
    ⟨5, ["pick,1"], ""⟩, ⟨6, ["/"], ""⟩, ⟨7, ["END"], ""⟩]

/-- A closing tag of no block, and two blocks that are never closed, of which the second is one of
the option again.
-/
def strayTexts : List String :=
  ["</>", "<choices>", "<option>pick"]

theorem ended_closed : Closed endedTexts := by
  have header : (⟨1, ["option"], "pick"⟩ : Line).statement [] = .ok (.option "pick") := by
    decide +kernel
  have offered : Line.readOption endedLines 0 "pick" = .ok (["A"], 2) := by decide +kernel
  have opening : (⟨4, ["choices"], ""⟩ : Line).statement ["pick"] = .ok .choices := by
    decide +kernel
  have block : Line.scanBlock endedLines ["pick"] 3 4 = .ok ⟨[⟨4, ⟨"pick", 1⟩⟩], 5⟩ := by
    decide +kernel
  have ending : (⟨7, ["END"], ""⟩ : Line).statement ["pick"] = .ok .ending := by decide +kernel
  have behind : Line.Reads endedLines ["pick"] 7 3 ["pick"] _ :=
    .choices rfl opening block (.cons (.runsOut rfl) .nil) (.ended rfl ending)
  have reads : Line.Reads endedLines ["pick"] 7 0 [] _ := .option rfl header offered behind
  exact ⟨endedLines, _, decodesTo_of_decodeAll (by decide +kernel),
    .intro (by decide) (by decide +kernel) reads, rfl⟩

/-- The script is compiled to the same graph with the stray texts behind it. -/
theorem ended_compile_append
    : Closed endedTexts
      ∧ (∀ text ∈ strayTexts, ∃ line, Spells text line ∧ ¬ line.Nameless)
      ∧ (∀ text ∈ strayTexts, ∀ name,
          Opens text name → ∃ earlier ∈ endedTexts, Opens earlier name)
      ∧ ∃ graph,
          (compile endedTexts).outcome = .ok graph
          ∧ (compile (endedTexts ++ strayTexts)).outcome = .ok graph := by
  have closing : Spells "</>" ⟨8, ["/"], ""⟩ := by decide +kernel
  have opening : Spells "<choices>" ⟨9, ["choices"], ""⟩ := by decide +kernel
  have header : Spells "<option>pick" ⟨10, ["option"], "pick"⟩ := by decide +kernel
  have readable : ∀ text ∈ strayTexts, ∃ line, Spells text line ∧ ¬ line.Nameless := by
    simp only [strayTexts, List.forall_mem_cons]
    exact ⟨⟨_, closing, by simp [Line.Nameless]⟩, ⟨_, opening, by simp [Line.Nameless]⟩,
      ⟨_, header, by simp [Line.Nameless]⟩, by simp⟩
  have opened
      : ∀ text ∈ strayTexts, ∀ name,
          Opens text name → ∃ earlier ∈ endedTexts, Opens earlier name := by
    simp only [strayTexts, List.forall_mem_cons, closing.opens_iff, opening.opens_iff]
    refine ⟨by simp [Line.Heads], by simp [Line.Heads], ?_, by simp⟩
    exact fun name opens => ⟨"<option>pick", by simp [endedTexts], opens⟩
  exact ⟨ended_closed, readable, opened, ended_closed.compile_append readable opened⟩

end Script

end Dialogue
