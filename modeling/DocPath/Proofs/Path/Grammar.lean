import DocPath.Proofs.Path.Brackets

/-! # The grammar of paths

A path is one or more tokens with dots between them. A token is a field, which may be missing, and
groups in brackets; it is not empty. The inside of a group is balanced, and is empty, or digits, or
constraints in braces. Nothing here reads a text: the rules say which texts write which paths.
-/

namespace DocPath

namespace Grammar

/-- A constraint in braces: the key ends at the first separator, the expected text at the brace. -/
inductive Predicate : List Char → Constraint → Prop where
  | intro {key expected : List Char} {separator : Char} : key ≠ [] →
      (∀ c ∈ key, c ≠ '=' ∧ c ≠ ':' ∧ c ≠ '\x7d') → separator = '=' ∨ separator = ':' →
      '\x7d' ∉ expected →
      Predicate ('\x7b' :: (key ++ separator :: (expected ++ ['\x7d'])))
        ⟨String.ofList key, String.ofList expected⟩

inductive Padded : List Char → Constraint → Prop where
  | intro {front predicate back : List Char} {c : Constraint} :
      (∀ x ∈ front, isBlank x = true) → Predicate predicate c → (∀ x ∈ back, isBlank x = true) →
      Padded (front ++ (predicate ++ back)) c

inductive Filter : List Char → List Constraint → Prop where
  | last {text : List Char} {c : Constraint} : Padded text c → Filter text [c]
  | more {text rest : List Char} {c : Constraint} {cs : List Constraint} :
      Padded text c → Filter rest cs → Filter (text ++ ',' :: rest) (c :: cs)

inductive Inside : List Char → Segment → Prop where
  | append : Inside [] .append
  | index {digits : List Char} : digits ≠ [] → (∀ c ∈ digits, c.isDigit = true) →
      digitsValue digits < positionLimit → Inside digits (.index (digitsValue digits))
  | filter {text : List Char} {constraints : List Constraint} :
      Filter text constraints → Inside text (.filter constraints)

inductive Group : List Char → Segment → Prop where
  | intro {inner : List Char} {segment : Segment} :
      Balanced inner → Inside inner segment → Group ('[' :: (inner ++ [']'])) segment

inductive Groups : List Char → Path → Prop where
  | nil : Groups [] []
  | cons {text rest : List Char} {segment : Segment} {path : Path} :
      Group text segment → Groups rest path → Groups (text ++ rest) (segment :: path)

inductive Token : List Char → Path → Prop where
  | groups {text : List Char} {path : Path} : text ≠ [] → Groups text path → Token text path
  | field {name text : List Char} {path : Path} : name ≠ [] →
      (∀ c ∈ name, c ≠ '.' ∧ c ≠ '[' ∧ c ≠ ']') → Groups text path →
      Token (name ++ text) (.field (String.ofList name) :: path)

inductive Derives : List Char → Path → Prop where
  | token {text : List Char} {path : Path} : Token text path → Derives text path
  | dot {text rest : List Char} {path more : Path} :
      Token text path → Derives rest more → Derives (text ++ '.' :: rest) (path ++ more)

open PathText

theorem Groups.head {text : List Char} {path : Path} (h : Groups text path) :
    text = [] ∨ ∃ rest, text = '[' :: rest := by
  cases h with
  | nil => exact .inl rfl
  | cons hg _ =>
    obtain ⟨_, _⟩ := hg
    exact .inr ⟨_, rfl⟩

theorem Groups.depth? {text : List Char} {path : Path} (h : Groups text path) :
    depth? 0 text = some 0 := by
  induction h with
  | nil => rfl
  | cons hg _ ih =>
    obtain ⟨hb, _⟩ := hg
    rw [depth?_append, depth?_group hb]
    exact ih

theorem Groups.append {text more : List Char} {path rest : Path} (h : Groups text path)
    (h' : Groups more rest) : Groups (text ++ more) (path ++ rest) := by
  induction h with
  | nil => exact h'
  | cons hg _ ih =>
    rw [List.append_assoc, List.cons_append]
    exact .cons hg ih

theorem Group.groups {text : List Char} {segment : Segment} (h : Group text segment) :
    Groups text [segment] := by
  simpa using Groups.cons h .nil

theorem Group.ne_nil {text : List Char} {segment : Segment} (h : Group text segment) :
    text ≠ [] := by
  obtain ⟨_, _⟩ := h
  exact List.cons_ne_nil _ _

theorem Group.token {text : List Char} {segment : Segment} (h : Group text segment) :
    Token text [segment] :=
  .groups h.ne_nil h.groups

theorem Token.append {text more : List Char} {path rest : Path} (h : Token text path)
    (h' : Groups more rest) : Token (text ++ more) (path ++ rest) := by
  cases h with
  | groups hne h => exact .groups (by simp [hne]) (h.append h')
  | field hne hf h =>
    rw [List.append_assoc, List.cons_append]
    exact .field hne hf (h.append h')

theorem Token.groups_of_open {text : List Char} {path : Path} (h : Token ('[' :: text) path) :
    Groups ('[' :: text) path := by
  generalize he : '[' :: text = whole at h
  cases h with
  | groups _ hg => exact hg
  | field hne hf _ =>
    obtain ⟨c, name, rfl⟩ := List.exists_cons_of_ne_nil hne
    obtain ⟨rfl, -⟩ := List.cons.inj he
    exact absurd rfl (hf '[' (List.mem_cons_self ..)).2.1

theorem Groups.dotless {text : List Char} {path : Path} (h : Groups text path) :
    Dotless 0 text := by
  induction h with
  | nil => trivial
  | cons hg _ ih =>
    obtain ⟨hb, _⟩ := hg
    exact .append (.group hb) (depth?_group hb) ih

theorem Token.depth? {text : List Char} {path : Path} (h : Token text path) :
    depth? 0 text = some 0 := by
  cases h with
  | groups _ hg => exact hg.depth?
  | field _ hf hg =>
    rw [depth?_append, depth?_field hf]
    exact hg.depth?

theorem Token.dotless {text : List Char} {path : Path} (h : Token text path) :
    Dotless 0 text := by
  cases h with
  | groups _ hg => exact hg.dotless
  | field _ hf hg => exact .append (.field hf) (depth?_field hf) hg.dotless

theorem Derives.depth? {text : List Char} {path : Path} (h : Derives text path) :
    depth? 0 text = some 0 := by
  induction h with
  | token ht => exact ht.depth?
  | dot ht _ ih =>
    rw [depth?_append, ht.depth?]
    exact ih

end Grammar

end DocPath
