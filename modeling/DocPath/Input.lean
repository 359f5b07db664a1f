import DocPath.Json.TextFormat
import DocPath.Leaves
import DocPath.Sort
import DocPath.Values
import DocPath.Write

/-! # Inputs

The operations of the library on an input: a text, a document that is already at hand, or an
application object that maps to one. What changes a document answers with its text. The format in
which texts are read and printed is a parameter.
-/

namespace DocPath

/-- What an application object maps to, or why it maps to no document. -/
abbrev Mapped := Except String Json

inductive Input where
  | text (content : String)
  | document (value : Json)
  | object (mapped : Mapped)

inductive InputError where
  | missing (argument : Argument)
  | notJson (reason : String)
  | path (error : PathError)
deriving DecidableEq

def InputError.message : InputError → String
  | .missing argument => argument.missingMessage
  | .notJson reason => "invalid JSON document: " ++ reason
  | .path error => error.message

namespace Input

variable (format : TextFormat) (input : Input)

/-- The document of an input. A blank text has none, whatever the format. -/
def load : Except InputError Json :=
  match input with
  | .document value => .ok value
  | .object mapped => mapped.mapError .notJson
  | .text content =>
    if isBlankText content then .error (.missing .document)
    else (format.read content).mapError .notJson

def leafPaths : Except InputError (Std.TreeSet String) :=
  (input.load format).map Json.leafPaths

def leafShapes : Except InputError (Std.TreeSet String) :=
  (input.load format).map Json.leafShapes

def leafValues : Except InputError (Std.TreeMap String Json) :=
  (input.load format).map Json.leafValues

def valueAt (path : String) : Except InputError (Option Json) := do
  ((← input.load format).valueAt path).mapError .path

/-- The text of the document after a write. An empty path fails before the document is looked at,
and the document before the value. -/
def write (path : String) (value : Mapped) : Except InputError String := do
  if path.isEmpty then .error (.missing .path)
  else
    let document ← input.load format
    let written := document.write path (← value.mapError .notJson)
    let _ ← written.outcome.mapError .path
    (format.print written.document).mapError .notJson

def sort (order : ListOrder) : Except InputError String := do
  let document ← input.load format
  (format.print (document.sort order)).mapError .notJson

end Input

end DocPath
