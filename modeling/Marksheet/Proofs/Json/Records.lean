import Marksheet.Report
import Marksheet.Proofs.Json.RoundTrip

/-!
# Marksheet.Proofs.Json.Records

A record without marks that is written as JSON is read as the same record: the keys are found where
they are looked for, the weightings are digits without point or exponent, and the lines come back in
order.

* `Json.written_ofNat` : numbers are written as JSON wants them.
* `Record.ofJson?_toJson` : reading undoes writing.
* `Record.parse?_ofJson` : so it does with the text in between.
-/

namespace Marksheet

namespace Json

theorem written_ofNat (n : Nat) : (Number.ofNat n).Written where
  whole := isDigit_decimalDigits n
  some_digit := decimalDigits_ne_nil n
  zero h := by
    by_cases hn : n = 0
    · subst hn
      rfl
    · exact absurd h (head_decimalDigits (Nat.pos_of_ne_zero hn))
  fraction := by simp [Number.ofNat]

theorem written_ofMembers {members : List (String × Json)}
    (h : ∀ member ∈ members, member.2.Written) : (ofMembers members).Written := by
  refine .object ?_
  intro member hm
  obtain ⟨other, ho, rfl⟩ := List.mem_map.mp hm
  exact h other ho

theorem toNat?_ofNat {n : Nat} (h : n < Nat.pow 2 64) : (Number.ofNat n).toNat? = some n := by
  have hdigits : digitsValue (Number.ofNat n).whole = n := digitsValue_decimalDigits n
  rw [Number.toNat?, hdigits, if_pos h]
  rfl

theorem parse?_ofJson {json : Json} (h : json.Written) :
    parse? (Report.ofJson json) = some json := by
  have htext : Report.ofJson json = String.ofList (print 0 json ++ ['\n']) := by
    rw [Report.ofJson, toText, String.ofList_append]
  rw [htext]
  exact parse?_print h (List.forall_mem_singleton.mpr rfl)

end Json

/-- An entity that has no mark yet, and a weighting of at most 64 bits. -/
structure Entity.Fresh (entity : Entity Float) : Prop where
  mark : entity.mark = none
  weighting : entity.weighting < Nat.pow 2 64

variable {entity : Entity Float} {record : Record Float}

theorem Entity.written_toJson (h : entity.Fresh) : entity.toJson.Written := by
  refine Json.written_ofMembers ?_
  simp only [List.forall_mem_cons, h.mark]
  exact ⟨.string _, .number (Json.written_ofNat _), .null, by simp⟩

theorem Entity.ofJson?_toJson (h : entity.Fresh) : Entity.ofJson? entity.toJson = some entity := by
  obtain ⟨name, weighting, mark⟩ := entity
  obtain ⟨hm, hw⟩ := h
  dsimp only at hm hw
  subst hm
  have hparts : (Entity.toJson { name, weighting, mark := none }).parts?
      ["name", "weighting", "value"] = some [some (.ofText name),
        some (.number (.ofNat weighting)), some .null] := rfl
  rw [Entity.ofJson?, hparts]
  simp [Json.toText?, Json.ofText, Json.toWeighting?, Json.toNat?_ofNat hw, Json.toMark?]

theorem Record.written_toJson (h : ∀ entity ∈ record.entities, entity.Fresh) :
    record.toJson.Written := by
  refine Json.written_ofMembers ?_
  simp only [List.forall_mem_cons]
  refine ⟨.string _, .array ?_, by simp⟩
  intro item hi
  obtain ⟨entity, he, rfl⟩ := List.mem_map.mp hi
  exact Entity.written_toJson (h entity he)

theorem Record.entitiesOfJson?_map {entities : List (Entity Float)}
    (h : ∀ entity ∈ entities, entity.Fresh) :
    Record.entitiesOfJson? (some (.array (entities.map Entity.toJson))) = some entities := by
  show (entities.map Entity.toJson).mapM Entity.ofJson? = some entities
  induction entities with
  | nil => rfl
  | cons entity entities ih =>
    obtain ⟨hentity, hentities⟩ := List.forall_mem_cons.mp h
    rw [List.map_cons, List.mapM_cons, Entity.ofJson?_toJson hentity, ih hentities]
    rfl

theorem Record.ofJson?_toJson (h : ∀ entity ∈ record.entities, entity.Fresh) :
    Record.ofJson? record.toJson = some record := by
  obtain ⟨formula, entities⟩ := record
  have hparts : (Record.toJson { formula, entities }).parts? ["formula", "entities"] =
      some [some (.ofText formula), some (.array (entities.map Entity.toJson))] := rfl
  rw [Record.ofJson?, hparts]
  simp [Json.toText?, Json.ofText, Record.entitiesOfJson?_map h]

theorem Record.parse?_ofJson (h : ∀ entity ∈ record.entities, entity.Fresh) :
    Record.parse? (Report.ofJson record.toJson) = some record := by
  rw [Record.parse?, Json.parse?_ofJson (Record.written_toJson h)]
  exact Record.ofJson?_toJson h

end Marksheet
