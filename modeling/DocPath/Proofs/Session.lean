import DocPath.Input
import DocPath.Json.Equality
import DocPath.Proofs.General
import DocPath.Proofs.Path.Rendering
import DocPath.Proofs.Sort.Keys
import DocPath.Proofs.Write.Atomicity

/-! # Sessions on texts

Calls may follow each other on a text, where a call that changes the document answers with the text
for the next one, or on one document in memory. If the format refuses blank texts and reads the
documents back from their texts as they are, both sessions answer alike at every step, and a call
that fails changes neither.
-/

namespace DocPath

inductive Call where
  | write (path : String) (value : Json)
  | sort (order : ListOrder)
  | valueAt (path : String)
  | leafValues
  | leafPaths
  | leafShapes

inductive Answer (δ : Type) where
  | changed (document : δ)
  | value (found : Option Json)
  | values (entries : Std.TreeMap String Json)
  | texts (paths : Std.TreeSet String)

/-- An answer with the text of a changed document in place of the document. -/
def Answer.print (format : TextFormat) : Answer Json → Except String (Answer String)
  | .changed document => (format.print document).map .changed
  | .value found => .ok (.value found)
  | .values entries => .ok (.values entries)
  | .texts paths => .ok (.texts paths)

def Answer.next (text : String) : Answer String → String
  | .changed next => next
  | _ => text

namespace Call

def onText (format : TextFormat) (text : String) : Call → Except InputError (Answer String)
  | .write path value => ((Input.text text).write format path (.ok value)).map .changed
  | .sort order => ((Input.text text).sort format order).map .changed
  | .valueAt path => ((Input.text text).valueAt format path).map .value
  | .leafValues => ((Input.text text).leafValues format).map .values
  | .leafPaths => ((Input.text text).leafPaths format).map .texts
  | .leafShapes => ((Input.text text).leafShapes format).map .texts

/-- The text for the next call: the one that a call has answered with, or else the same. -/
def nextText (format : TextFormat) (call : Call) (text : String) : String :=
  match call.onText format text with
  | .ok answer => answer.next text
  | .error _ => text

def onDocument (document : Json) : Call → Except PathError (Answer Json)
  | .write path value =>
    let written := document.write path value
    written.outcome.map fun _ => .changed written.document
  | .sort order => .ok (.changed (document.sort order))
  | .valueAt path => (document.valueAt path).map .value
  | .leafValues => .ok (.values document.leafValues)
  | .leafPaths => .ok (.texts document.leafPaths)
  | .leafShapes => .ok (.texts document.leafShapes)

/-- The document in memory for the next call: what a write leaves, also one that fails, or the
sorted document. -/
def nextDocument (document : Json) : Call → Json
  | .write path value => (document.write path value).document
  | .sort order => document.sort order
  | _ => document

/-- The documents of a session in memory, the first and the last one among them. -/
def documents : List Call → Json → List Json
  | [], document => [document]
  | call :: calls, document => document :: documents calls (call.nextDocument document)

/-- The error on a text for an error on a document. A write to an empty path is refused as such. -/
def report : Call → PathError → InputError
  | .write path _, error => if path.isEmpty then .missing .path else .path error
  | _, error => .path error

/-- A call does the same on a text as on a document: it answers with the printed answer, or reports
the error with the same message and changes neither. -/
structure Agrees (format : TextFormat) (call : Call) (text : String) (document : Json) : Prop where
  answer : ∀ answer, call.onDocument document = .ok answer →
    ∃ printed, answer.print format = .ok printed ∧ call.onText format text = .ok printed
  error : ∀ error, call.onDocument document = .error error →
    call.onText format text = .error (call.report error) ∧
      (call.report error).message = error.message ∧ call.nextText format text = text ∧
      call.nextDocument document = document

/-- Calls in turn on a text and on a document, where the text is read as the document before and
after every call. -/
inductive Agree (format : TextFormat) : List Call → String → Json → Prop where
  | done {text : String} {document : Json} :
      format.read text = .ok document → Agree format [] text document
  | step {call : Call} {calls : List Call} {text : String} {document : Json} :
      format.read text = .ok document → call.Agrees format text document →
        Agree format calls (call.nextText format text) (call.nextDocument document) →
          Agree format (call :: calls) text document

end Call

theorem Input.load_text {format : TextFormat} {text : String} {document : Json}
    (hb : format.RefusesBlank) (h : format.read text = .ok document) :
    (Input.text text).load format = .ok document := by
  have hn : isBlankText text = false := by
    rw [← Bool.not_eq_true]
    intro hn
    obtain ⟨reason, hr⟩ := hb text hn
    rw [hr] at h
    nomatch h
  rw [load, hn, h]
  rfl

theorem Input.write_of_load {format : TextFormat} {input : Input} {document : Json} {path : String}
    (hl : input.load format = .ok document) (he : ¬ path.isEmpty) (value : Json) :
    input.write format path (.ok value) =
      ((document.write path value).outcome.mapError .path).bind fun _ =>
        (format.print (document.write path value).document).mapError .notJson := by
  rw [write, if_neg he, hl]
  rfl

theorem Json.write_outcome_of_empty (document value : Json) :
    (document.write "" value).outcome = .error (.missing .path) := by
  simp [write, Path.parse, Written.failed]

theorem Json.write_document_of_error {document value : Json} {text : String} {error : PathError}
    (ha : document.Addressable) (h : (document.write text value).outcome = .error error) :
    (document.write text value).document = document := by
  rw [Json.write] at h ⊢
  cases hp : Path.parse text with
  | error error => rfl
  | ok path =>
    rw [hp] at h
    exact Path.write_document_of_error ha h

namespace Call

variable {format : TextFormat} {text : String} {document : Json}

theorem report_message {call : Call} {error : PathError}
    (h : call.onDocument document = .error error) :
    (call.report error).message = error.message := by
  cases call with
  | write path value =>
    rw [report]
    split
    case isTrue he =>
      obtain rfl := String.isEmpty_iff.1 he
      rw [onDocument, Json.write_outcome_of_empty] at h
      cases h
      rfl
    case isFalse => rfl
  | _ => rfl

/-- A call on a text does what it does on the document of the text, and prints the answer. -/
theorem onText_eq (call : Call) (hl : (Input.text text).load format = .ok document) :
    call.onText format text = ((call.onDocument document).mapError call.report).bind
      fun answer => (answer.print format).mapError .notJson := by
  cases call with
  | write path value =>
    by_cases he : path.isEmpty
    · rw [onText, Input.write, if_pos he, onDocument]
      obtain rfl := String.isEmpty_iff.1 he
      simp only [Json.write_outcome_of_empty]
      rfl
    · have hr : (Call.write path value).report = .path := funext fun _ => if_neg he
      rw [onText, Input.write_of_load hl he, onDocument, hr]
      cases (document.write path value).outcome with
      | error error => rfl
      | ok count => exact map_mapError ..
  | sort order =>
    rw [onText, Input.sort, hl]
    exact map_mapError ..
  | valueAt path =>
    rw [onText, Input.valueAt, hl, onDocument]
    change ((document.valueAt path).mapError InputError.path).map Answer.value = _
    cases document.valueAt path <;> rfl
  | leafValues =>
    rw [onText, Input.leafValues, hl]
    rfl
  | leafPaths =>
    rw [onText, Input.leafPaths, hl]
    rfl
  | leafShapes =>
    rw [onText, Input.leafShapes, hl]
    rfl

theorem nextDocument_of_error {call : Call} {error : PathError} (ha : document.Addressable)
    (h : call.onDocument document = .error error) : call.nextDocument document = document := by
  cases call with
  | write path value =>
    exact Json.write_document_of_error ha (map_eq_error_iff.mp h)
  | sort order => nomatch h
  | _ => rfl

/-- A call that succeeds answers with the document for the next call, or it keeps the document and
its answer the text. -/
theorem answer_cases {call : Call} {answer : Answer Json}
    (h : call.onDocument document = .ok answer) :
    answer = .changed (call.nextDocument document) ∨
      call.nextDocument document = document ∧
        ∃ same, answer.print format = .ok same ∧ ∀ text, same.next text = text := by
  cases call with
  | write path value =>
    obtain ⟨_, -, rfl⟩ := map_eq_ok_iff.mp h
    exact .inl rfl
  | sort order =>
    cases h
    exact .inl rfl
  | valueAt path =>
    obtain ⟨_, -, rfl⟩ := map_eq_ok_iff.mp h
    exact .inr ⟨rfl, _, rfl, fun _ => rfl⟩
  | leafValues | leafPaths | leafShapes =>
    cases h
    exact .inr ⟨rfl, _, rfl, fun _ => rfl⟩

theorem exists_print {call : Call} {answer : Answer Json} (hp : format.read text = .ok document)
    (hn : format.LawfulAt (call.nextDocument document))
    (h : call.onDocument document = .ok answer) :
    ∃ printed, answer.print format = .ok printed ∧
      format.read (printed.next text) = .ok (call.nextDocument document) := by
  rcases answer_cases h with rfl | ⟨hd, same, hs, hk⟩
  · obtain ⟨next, hn, hr⟩ := bind_eq_ok_iff.mp hn
    exact ⟨.changed next, by rw [Answer.print, hn]; rfl, hr⟩
  · exact ⟨same, hs, by rw [hk, hp, hd]⟩

/-- One call on a text and on the document of the text: the answers agree, and the text after it is
read as the document after it. -/
theorem agrees_and_read (call : Call) (hb : format.RefusesBlank)
    (hp : format.read text = .ok document) (hn : format.LawfulAt (call.nextDocument document))
    (ha : document.Addressable) :
    call.Agrees format text document ∧
      format.read (call.nextText format text) = .ok (call.nextDocument document) := by
  have ht := onText_eq call (Input.load_text hb hp)
  cases h : call.onDocument document with
  | error error =>
    rw [h] at ht
    have hk : call.nextText format text = text := by
      rw [nextText, ht]
      rfl
    have hd := nextDocument_of_error ha h
    refine ⟨⟨fun _ h' => (nomatch h.symm.trans h'), fun _ h' => ?_⟩, by rw [hk, hp, hd]⟩
    obtain rfl := Except.error.inj (h.symm.trans h')
    exact ⟨ht, report_message h, hk, hd⟩
  | ok answer =>
    obtain ⟨printed, hs, hr⟩ := exists_print hp hn h
    rw [h] at ht
    change call.onText format text = (answer.print format).mapError .notJson at ht
    rw [hs] at ht
    refine ⟨⟨fun _ h' => ?_, fun _ h' => (nomatch h.symm.trans h')⟩, by rwa [nextText, ht]⟩
    obtain rfl := Except.ok.inj (h.symm.trans h')
    exact ⟨printed, hs, ht⟩

theorem mem_documents_self (calls : List Call) (document : Json) :
    document ∈ documents calls document := by
  cases calls <;> exact List.mem_cons_self

end Call

/-- Calls in turn on a text do what they do on the document of the text. The format is to refuse
blank texts and to read back the documents on the way from their texts. -/
theorem sessions_agree {format : TextFormat} {calls : List Call} {text : String} {document : Json}
    (hb : format.RefusesBlank) (hp : format.read text = .ok document)
    (hr : ∀ met ∈ Call.documents calls document, format.LawfulAt met)
    (ha : ∀ met ∈ Call.documents calls document, met.Addressable) :
    Call.Agree format calls text document := by
  induction calls generalizing text document with
  | nil => exact .done hp
  | cons call calls ih =>
    have hn := hr (call.nextDocument document)
      (List.mem_cons_of_mem _ (Call.mem_documents_self _ _))
    obtain ⟨hc, ht⟩ :=
      call.agrees_and_read hb hp hn (ha document (Call.mem_documents_self _ _))
    exact .step hp hc (ih ht (fun met hm => hr met (List.mem_cons_of_mem _ hm))
      fun met hm => ha met (List.mem_cons_of_mem _ hm))

def unsorted : Json := .object [("b", .null), ("a", .list [])]

def nested : Json := .object [("b", .object [("c", .bool true)]), ("a", .list [])]

def unsortedText : String := "\x7b\"b\": null, \"a\": []\x7d"

/-- Two writes that fail after one that does not, and then a sort and reads. -/
def writesAndReads : List Call :=
  [.write "b.c" (.bool true), .write "" .null, .write "b.c.d" .null, .sort ∅, .valueAt "b.c",
    .leafPaths]

theorem sessions_agree_nested :
    TextFormat.indentedJson.read unsortedText = .ok unsorted ∧
      Call.Agree .indentedJson writesAndReads unsortedText unsorted := by
  have hp : TextFormat.indentedJson.read unsortedText = .ok unsorted :=
    TextFormat.read_indentedJson (by decide +kernel)
  have hd : Call.documents writesAndReads unsorted =
      unsorted :: List.replicate 3 nested ++
        List.replicate 3 (.object [("a", .list []), ("b", .object [("c", .bool true)])]) := by
    have hc : Path.parse "b.c" = .ok [.field "b", .field "c"] :=
      @Path.parse_render [.field "b", .field "c"] (by simp [Path.WellFormed, Segment.WellFormed])
    have hm : Path.parse "" = .error (.missing .path) := rfl
    have hf : Path.parse "b.c.d" = .ok [.field "b", .field "c", .field "d"] :=
      @Path.parse_render [.field "b", .field "c", .field "d"]
        (by simp [Path.WellFormed, Segment.WellFormed])
    have hs : nested.sort ∅ = .object [("a", .list []), ("b", .object [("c", .bool true)])] := by
      simp [nested, Json.sort_object, Json.sort_list, @Json.sort_scalar (.bool true) rfl,
        sortMembers, List.mergeSort, List.MergeSort.Internal.splitInTwo]
    have hn : Path.write [.field "b", .field "c"] (.bool true) unsorted = ⟨nested, .ok 1⟩ := rfl
    have he : Path.write [.field "b", .field "c", .field "d"] .null nested =
        .failed nested (.untargetable [.field "b", .field "c", .field "d"]
          (.objectExpected [.key "b", .key "c"] .boolean)) := rfl
    simp only [writesAndReads, Call.documents, Call.nextDocument, Json.write, hc, hm, hf, hn, he,
      Written.failed, hs]
    rfl
  have hb (met : Json) (hm : met ∈ Call.documents writesAndReads unsorted) :
      TextFormat.indentedJson.LawfulAt met ∧ met.Addressable := by
    simp only [hd, List.mem_append, List.mem_cons, List.mem_replicate] at hm
    rcases hm with (rfl | ⟨-, rfl⟩) | ⟨-, rfl⟩
    all_goals exact ⟨TextFormat.lawfulAt_indentedJson (by decide +kernel),
      by simp [unsorted, nested, positionLimit, UInt64.size]⟩
  exact ⟨hp, sessions_agree TextFormat.refusesBlank_indentedJson hp (fun met hm => (hb met hm).1)
    fun met hm => (hb met hm).2⟩

end DocPath
