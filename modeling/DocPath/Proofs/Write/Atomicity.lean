import DocPath.Proofs.Write.Revision

/-! # Writes are atomic

A write that fails leaves the document as it was. All faults are found while the locations are
planned: the assignments at planned locations run to the end, each on the document that the ones
before it leave.
-/

namespace DocPath

open Location

theorem Assigned.andThen_fault {first : Assigned} {next : Json → Assigned}
    (h : (first.andThen next).fault = none) :
    first.fault = none ∧ (next first.document).fault = none := by
  rcases first with ⟨document, _ | fault⟩
  · exact ⟨rfl, h⟩
  · nomatch h

/-- Nothing stops the assignments at the planned locations. -/
theorem assignAll_locations_fault (value : Json) {path : Path} {document : Json}
    (h : document.Addressable) {locations : List Location}
    (hl : path.locations .write document = .ok locations) :
    (assignAll value locations document).fault = none := by
  have ha := agrees_locations value path h
  rw [hl, Except.toOption] at ha
  generalize path.revise value (some document) = revision at ha
  cases ha with
  | untouched => rfl
  | revised _ he => rw [he]

theorem Path.write_document_of_error {path : Path} {value document : Json} {error : PathError}
    (h : document.Addressable) (he : (path.write value document).outcome = .error error) :
    (path.write value document).document = document := by
  have hc := path.write_cases value document
  generalize path.write value document = written at hc he ⊢
  cases hc with
  | refused => rfl
  | stopped hl ha =>
    have hn := assignAll_locations_fault value h hl
    rw [ha] at hn
    cases hn
  | done => cases he

/-- A write that fails, through a path or through its text, leaves the document as it was. Where a
plan succeeds, no assignment fails, whatever assignments of the plan come before it. -/
theorem write_atomic (value : Json) {document : Json} (h : document.Addressable) :
    (∀ (path : Path) (error : PathError), (path.write value document).outcome = .error error →
      (path.write value document).document = document) ∧
    (∀ (text : String) (error : PathError), (document.write text value).outcome = .error error →
      (document.write text value).document = document) ∧
    (∀ (path : Path) (before after : List Location) (location : Location),
      path.locations .write document = .ok (before ++ location :: after) →
        (assignAll value before document).fault = none ∧
          (location.assign value (assignAll value before document).document).fault = none) := by
  refine ⟨fun _ _ => Path.write_document_of_error h, ?_, ?_⟩
  · intro text error he
    simp only [Json.write] at he ⊢
    split at he
    · rfl
    · exact Path.write_document_of_error h he
  · intro path before after location hl
    have hn := assignAll_locations_fault value h hl
    rw [assignAll_append] at hn
    obtain ⟨hb, hn⟩ := Assigned.andThen_fault hn
    rw [assignAll_cons] at hn
    exact ⟨hb, (Assigned.andThen_fault hn).1⟩

def pairInCA : Json :=
  .object [("people", .list [.object [("state", .string "CA")],
    .object [("state", .string "CA"), ("zip", .bool true)]])]

theorem write_atomic_people :
    pairInCA.Addressable ∧
    (Path.write [.field "people", .filter [⟨"state", "CA"⟩], .field "zip", .append] .null
      pairInCA).document = pairInCA ∧
    (assign .null [.key "people", .index 1, .key "city"]
      (assignAll .null [[.key "people", .index 0, .key "city"]] pairInCA).document).fault =
        none := by
  have ha : pairInCA.Addressable := by
    simp [pairInCA, positionLimit, UInt64.size]
  obtain ⟨hp, -, hl⟩ := write_atomic .null ha
  refine ⟨ha, hp _ (.untargetable
    [.field "people", .filter [⟨"state", "CA"⟩], .field "zip", .append]
    (.listExpected [.key "people", .index 1, .key "zip"] .boolean)) rfl, ?_⟩
  exact (hl [.field "people", .filter [⟨"state", "CA"⟩], .field "city"]
    [[.key "people", .index 0, .key "city"]] [] [.key "people", .index 1, .key "city"] rfl).2

end DocPath
