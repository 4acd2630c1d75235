import Mathlib.Data.List.Perm.Basic
import Dialogue.Json.Basic

/-! Looking up what stands under a name: where names are distinct, it is what is there, in whatever
order and among whatever else.
-/

namespace Dialogue

section Lookup

variable {α : Type}

/-- Where no name comes twice, a value is found exactly if it stands under the name. -/
theorem lookup_eq_some_iff_mem {entries : List (String × α)}
    (distinct : (entries.map Prod.fst).Nodup) {name : String} {value : α}
    : entries.lookup name = some value ↔ (name, value) ∈ entries := by
  rw [List.lookup_eq_some_iff]
  constructor
  · rintro ⟨before, after, rfl, -⟩
    exact List.mem_append_right before List.mem_cons_self
  · intro member
    obtain ⟨before, after, rfl⟩ := List.append_of_mem member
    rw [List.map_append] at distinct
    have apart := (List.nodup_append.mp distinct).2.2
    refine ⟨before, after, rfl, fun entry earlier => bne_iff_ne.mpr fun same => ?_⟩
    exact apart entry.1 (List.mem_map_of_mem earlier) name List.mem_cons_self same.symm

/-- Leaving out entries of other names makes no difference, by induction on the entries. -/
theorem lookup_filter {keep : String → Bool} {name : String} (kept : keep name = true)
    (entries : List (String × α))
    : (entries.filter fun entry => keep entry.1).lookup name = entries.lookup name := by
  induction entries with
  | nil => rfl
  | cons first rest ih =>
      obtain ⟨other, value⟩ := first
      by_cases same : name = other
      · subst same
        rw [List.filter_cons, if_pos kept, List.lookup_cons_self, List.lookup_cons_self]
      · have skipped : ((other, value) :: rest).lookup name = rest.lookup name := by
          rw [List.lookup_cons, beq_false_of_ne same]
        rw [skipped, List.filter_cons]
        split
        · rw [List.lookup_cons, beq_false_of_ne same]
          exact ih
        · exact ih

/-- Items with results that are all there have a list of results, by induction on the items. -/
theorem mapM_eq_some_of_forall₂ {β : Type} {f : α → Option β} {items : List α} {results : List β}
    (each : List.Forall₂ (fun item result => f item = some result) items results)
    : items.mapM f = some results := by
  induction each with
  | nil => rfl
  | cons found _ ih => rw [List.mapM_cons, found, ih]; rfl

end Lookup

namespace Json

/-- An object has these members, in any order and with any members of other names among them. -/
def HasFields (fields : List (String × Json)) (json : Json) : Prop :=
  ∃ members,
    json = .object members
    ∧ (members.filter fun member => (fields.map Prod.fst).contains member.1).Perm fields

/-- An object has its own members. -/
theorem hasFields_object (fields : List (String × Json)) : HasFields fields (.object fields) := by
  refine ⟨fields, rfl, List.Perm.of_eq (List.filter_eq_self.mpr fun member present => ?_)⟩
  exact List.contains_iff_mem.mpr (List.mem_map_of_mem present)

section Fields

variable {fields : List (String × Json)} {names : List String} {json : Json}
  (has : json.HasFields fields) (named : fields.map Prod.fst = names) (distinct : names.Nodup)

include has named distinct

/-- Every field is found, whatever else is there. -/
theorem HasFields.member? {name : String} {value : Json} (member : (name, value) ∈ fields)
    : json.member? name = some value := by
  subst named
  obtain ⟨members, rfl, same⟩ := has
  have known : (fields.map Prod.fst).contains name = true :=
    List.contains_iff_mem.mpr (List.mem_map_of_mem member)
  have reversed := ((members.reverse_perm).filter _).trans same
  rw [Json.member?, members?, Option.bind_some, ← lookup_filter known,
    lookup_eq_some_iff_mem ((reversed.map Prod.fst).nodup_iff.mpr distinct), reversed.mem_iff]
  exact member

theorem HasFields.select? : json.select? names = some (fields.map Prod.snd) := by
  apply mapM_eq_some_of_forall₂
  rw [← named, List.forall₂_map_left_iff, List.forall₂_map_right_iff, List.forall₂_same]
  exact fun _ member => has.member? named distinct member

/-- An object with these members is a record of these fields. -/
theorem HasFields.fields? : json.fields? names = some (fields.map Prod.snd) := by
  have selected := has.select? named distinct
  obtain ⟨members, rfl, -⟩ := has
  exact selected

end Fields

theorem natural?_natural {bound value : Nat} (inBound : value < bound)
    : (Json.natural value).natural? (bound - 1) = some value :=
  if_pos (Nat.le_sub_one_of_lt inBound)

section Lists

variable {α : Type} {read : Json → Option α} {values : List α}

/-- A list is read back from documents of its items that are read back one by one. -/
theorem listOf?_array {written : α → Json → Prop} {items : List Json}
    (each : List.Forall₂ written values items)
    (reads : ∀ value ∈ values, ∀ item, written value item → read item = some value)
    : (Json.array items).listOf? read = some values := by
  have both := (List.forall₂_and_left _ _).mpr ⟨reads, each⟩
  exact mapM_eq_some_of_forall₂ (both.imp fun _ item known => known.1 item known.2).flip

theorem listOf?_map {write : α → Json} (reads : ∀ value ∈ values, read (write value) = some value)
    : (Json.array (values.map write)).listOf? read = some values := by
  refine listOf?_array (List.forall₂_map_right_iff.mpr (List.forall₂_same.mpr fun _ _ => rfl)) ?_
  rintro value member _ rfl
  exact reads value member

end Lists

end Json

end Dialogue
