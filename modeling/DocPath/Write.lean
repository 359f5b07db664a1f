import DocPath.Path.Parser
import DocPath.Places

/-! # Writing through paths

A write plans all of its locations on the document as it is, and then puts the value at one after
the other, creating objects and lists in the place of null and filling lists with null. What a
write leaves behind is part of its result also when it fails.
-/

namespace DocPath

/-- What an assignment leaves, and the fault that stopped it, if one did. -/
structure Assigned where
  document : Json
  fault : Option TargetFault

def Json.orEmptyObject : Json → Json
  | .null => .object []
  | value => value

def Json.orEmptyList : Json → Json
  | .null => .list []
  | value => value

/-- A list with as many nulls at its end as give it an element at a position. -/
def padTo (position : Nat) (items : List Json) : List Json :=
  items ++ List.replicate (position + 1 - items.length) .null

namespace Location

def assign (value : Json) : Location → Json → Assigned
  | [], _ => ⟨value, none⟩
  | .key name :: rest, document =>
    match document.orEmptyObject with
    | .object members =>
      let inner := assign value rest ((Members.get? members name).getD .null)
      ⟨.object (Members.put name inner.document members), inner.fault⟩
    | other => ⟨other, some (.cannotSetKey name other.kind)⟩
  | .index position :: rest, document =>
    match document.orEmptyList with
    | .list items =>
      if items.length ≤ position ∧ positionLimit ≤ position + 1 then
        ⟨.list items, some (.positionOutOfRange position)⟩
      else
        let padded := padTo position items
        let inner := assign value rest (padded[position]?.getD .null)
        ⟨.list (padded.set position inner.document), inner.fault⟩
    | other => ⟨other, some (.cannotSetIndex position other.kind)⟩

def assignAll (value : Json) : List Location → Json → Assigned
  | [], document => ⟨document, none⟩
  | location :: rest, document =>
    match location.assign value document with
    | ⟨next, none⟩ => assignAll value rest next
    | stopped => stopped

end Location

/-- The document after a write, and the number of locations written or why the write failed. -/
structure Written where
  document : Json
  outcome : Except PathError Nat

def Written.failed (document : Json) (error : PathError) : Written :=
  ⟨document, .error error⟩

def Path.write (path : Path) (value document : Json) : Written :=
  if document.kind = .null then .failed document (.missing .document)
  else if path.isEmpty then .failed document (.missing .path)
  else if path.endsInFilter then .failed document (.untargetable path .elementWithoutKey)
  else
    match path.locations .write document with
    | .error error => .failed document error
    | .ok locations =>
      match Location.assignAll value locations document with
      | ⟨next, none⟩ => ⟨next, .ok locations.length⟩
      | ⟨stopped, some fault⟩ => .failed stopped (.untargetable path fault)

def Json.write (document : Json) (text : String) (value : Json) : Written :=
  match Path.parse text with
  | .error error => .failed document error
  | .ok path => path.write value document

end DocPath
