import DocPath.Json.Parser
import DocPath.Json.Printer
import DocPath.Text.Blank

/-! # Text formats

A text format reads documents from texts and prints them. It carries no law of its own: that the
text of a document is read back as the document, and that a blank text is refused, are predicates of
a format. Indented JSON text is a format, and refuses blank texts.
-/

namespace DocPath

/-- A reader and a printer of documents. What fails says why. -/
structure TextFormat where
  read : String → Except String Json
  print : Json → Except String String

namespace TextFormat

/-- The text of the document is read back as the document. -/
def LawfulAt (format : TextFormat) (document : Json) : Prop :=
  (format.print document).bind format.read = .ok document

def RefusesBlank (format : TextFormat) : Prop :=
  ∀ text, isBlankText text = true → ∃ reason, format.read text = .error reason

def indentedJson : TextFormat where
  read text := (Json.parse? text).elim (.error "malformed text") .ok
  print document := .ok document.indented

end TextFormat

theorem isBlank_of_isNumberChar {c : Char} (h : NumberText.isNumberChar c = true) :
    isBlank c = false := by
  simp only [NumberText.isNumberChar, Bool.or_eq_true, decide_eq_true_eq] at h
  rcases h with ((((hd | rfl) | rfl) | rfl) | rfl) | rfl
  case inl =>
    have hl : 48 ≤ c.toNat ∧ c.toNat ≤ 57 := by
      simpa [Char.isDigit, UInt32.le_iff_toNat_le] using hd
    simp only [isBlank, blankRanges, List.any_cons, List.any_nil]
    grind
  all_goals decide

namespace JsonText

theorem scalar_of_blank {text : List Char} (h : ∀ c ∈ text, isBlank c = true) :
    scalar text = none := by
  cases text with
  | nil => rfl
  | cons c rest =>
    have hc := h c List.mem_cons_self
    have hn : NumberText.isNumberChar c = false := by
      rw [← Bool.not_eq_true]
      intro hn
      simp [isBlank_of_isNumberChar hn] at hc
    rw [scalar]
    split
    case h_1 he | h_2 he | h_3 he | h_4 he =>
      obtain rfl := Option.some.inj he
      exact absurd hc (by decide)
    case h_5 => simp [number, hn]

theorem value_eq_scalar (depth : Nat) {text : List Char} (hl : text.head? ≠ some '[')
    (ho : text.head? ≠ some '{') : value depth text = scalar text := by
  cases depth with
  | zero => rfl
  | succ depth =>
    simp only [value]
    split
    · exact absurd rfl hl
    · exact absurd rfl ho
    · rfl

end JsonText

theorem Json.parse?_of_blank {text : String} (h : isBlankText text = true) :
    Json.parse? text = none := by
  have hs : ∀ c ∈ JsonText.skipSpace text.toList, isBlank c = true := fun c hc =>
    (isBlankText_iff text).1 h c ((List.dropWhile_sublist _).subset hc)
  have hne : ∀ c, isBlank c = false → (JsonText.skipSpace text.toList).head? ≠ some c := by
    intro c hc he
    simp [hs c (List.mem_of_head? he)] at hc
  rw [parse?, JsonText.readWhole,
    JsonText.value_eq_scalar _ (hne '[' (by decide)) (hne '{' (by decide)),
    JsonText.scalar_of_blank hs]

namespace TextFormat

theorem read_indentedJson {text : String} {document : Json} (h : Json.parse? text = some document) :
    indentedJson.read text = .ok document := by
  simp [indentedJson, h]

theorem lawfulAt_indentedJson {document : Json}
    (h : Json.parse? document.indented = some document) : indentedJson.LawfulAt document :=
  read_indentedJson h

theorem refusesBlank_indentedJson : indentedJson.RefusesBlank := by
  intro text h
  simp [indentedJson, Json.parse?_of_blank h]

end TextFormat

end DocPath
