import DocPath.Path.Fault
import DocPath.Path.Filter

/-! # Places of a path

A path leads from the root of a document to places in it, segment by segment. Reading drops a place
that does not exist. Writing plans the places to be created, and fails where a value of one kind
would have to be of another.
-/

namespace DocPath

inductive Access where
  | read
  | write
deriving DecidableEq

structure Place where
  location : Location
  value : Option Json

def paddingAllowed (position length : Nat) : Bool :=
  position + 1 < positionLimit && position + 1 - length ≤ maxPadding + 1

/-- Where a value of the wrong kind stands in the way: reading drops the place, writing fails. -/
def Access.refuse (access : Access) (fault : TargetFault) : Except TargetFault (List Place) :=
  match access with
  | .read => .ok []
  | .write => .error fault

namespace Place

def root (document : Json) : Place :=
  ⟨[], some document⟩

variable (access : Access) (place : Place)

def extend (step : Step) (value : Option Json) : Place :=
  ⟨place.location ++ [step], value⟩

/-- The place one step further where there is no value yet, to which only writing leads. -/
def planned (step : Step) : List Place :=
  match access with
  | .read => []
  | .write => [place.extend step none]

/-- The place past the end of a list of the given length, to which only writing leads. -/
def plannedPast (position length : Nat) : Except TargetFault (List Place) :=
  match access with
  | .read => .ok []
  | .write =>
    if paddingAllowed position length then .ok [place.extend (.index position) none]
    else .error (.tooMuchPadding position place.location)

/-- The places to which a segment leads. Null is written through as if there were no value. -/
def follow : Segment → Except TargetFault (List Place)
  | .field name =>
    match place.value with
    | some (.object members) =>
      match Members.get? members name with
      | some child => .ok [place.extend (.key name) (some child)]
      | none => .ok (place.planned access (.key name))
    | none | some .null => .ok (place.planned access (.key name))
    | some other => access.refuse (.objectExpected place.location other.kind)
  | .index position =>
    match place.value with
    | some (.list items) =>
      match items[position]? with
      | some child => .ok [place.extend (.index position) (some child)]
      | none => place.plannedPast access position items.length
    | none | some .null => place.plannedPast access position 0
    | some other => access.refuse (.listExpected place.location other.kind)
  | .append =>
    match place.value with
    | some (.list items) =>
      match access with
      | .read => .ok (items.mapIdx fun position item => place.extend (.index position) (some item))
      | .write => .ok [place.extend (.index items.length) none]
    | none | some .null => .ok (place.planned access (.index 0))
    | some other => access.refuse (.listExpected place.location other.kind)
  | .filter constraints =>
    match place.value with
    | some (.list items) =>
      .ok ((items.zipIdx.filter fun entry => entry.1.satisfies constraints).map fun entry =>
        place.extend (.index entry.2) (some entry.1))
    | _ => .ok []

end Place

def Segment.advance (access : Access) (segment : Segment) (places : List Place) :
    Except TargetFault (List Place) :=
  (places.mapM (Place.follow access · segment)).map List.flatten

namespace Path

variable (access : Access) (path : Path) (document : Json)

/-- The places of a path, in document order. A fault in an earlier segment comes first. -/
def places : Except TargetFault (List Place) :=
  path.foldlM (fun places segment => segment.advance access places) [Place.root document]

def locations : Except PathError (List Location) :=
  ((path.places access document).map fun places => places.map Place.location).mapError
    (.untargetable path)

end Path

end DocPath
