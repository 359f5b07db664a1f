import DocPath.Path.Parser
import DocPath.Places

/-! # Values at a path

The values at a path are those of its places, in document order. A path that leads nowhere has no
values, which is no error.
-/

namespace DocPath

namespace Path

variable (path : Path) (document : Json)

def values : Except PathError (List Json) :=
  ((path.places .read document).map fun places => places.filterMap Place.value).mapError
    (.untargetable path)

def firstValue : Except PathError (Option Json) :=
  (path.values document).map List.head?

end Path

namespace Json

variable (document : Json) (text : String)

def valuesAt : Except PathError (List Json) := do
  (← Path.parse text).values document

def valueAt : Except PathError (Option Json) := do
  (← Path.parse text).firstValue document

end Json

end DocPath
