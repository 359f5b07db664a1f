import DocPath.Proofs.Path.Parsing

/-! # Rendered paths

The well formed paths are those that some text writes. Rendering one gives a text that writes it
again, so the texts of two different well formed paths differ. Whether a filter is balanced depends
on the brackets in its keys and expected texts alone: the characters around them are none.
-/

namespace DocPath

open Grammar PathText

def brackets (text : List Char) : List Char :=
  text.filter fun c => c = '[' || c = ']'

@[simp] theorem brackets_nil : brackets [] = [] := rfl

@[simp] theorem brackets_append (front back : List Char) :
    brackets (front ++ back) = brackets front ++ brackets back :=
  List.filter_append ..

theorem brackets_cons_of_ne {c : Char} (ho : c ≠ '[') (hc : c ≠ ']') (rest : List Char) :
    brackets (c :: rest) = brackets rest := by
  simp [brackets, ho, hc]

theorem brackets_of_blank {text : List Char} (h : ∀ c ∈ text, isBlank c = true) :
    brackets text = [] := by
  refine List.filter_eq_nil_iff.mpr fun c hc => ?_
  simp only [Bool.or_eq_true, decide_eq_true_eq]
  rintro (rfl | rfl) <;> exact absurd (h _ hc) (by decide)

theorem balanced_brackets {text : List Char} : Balanced (brackets text) ↔ Balanced text := by
  suffices h : ∀ depth, depth? depth (brackets text) = depth? depth text by
    rw [balanced_iff, balanced_iff, h]
  induction text with
  | nil => exact fun depth => rfl
  | cons c rest ih =>
    intro depth
    by_cases hb : c = '[' ∨ c = ']'
    · have hk : brackets (c :: rest) = c :: brackets rest := by
        rcases hb with rfl | rfl <;> rfl
      rw [hk, depth?_cons, depth?_cons]
      simp only [ih]
    · obtain ⟨ho, hc⟩ := not_or.mp hb
      rw [brackets_cons_of_ne ho hc, depth?_cons_of_ne ho hc, ih]

def filterTexts (constraints : List Constraint) : List Char :=
  constraints.flatMap fun c => c.key.toList ++ c.expected.toList

def Constraint.WellFormed (c : Constraint) : Prop :=
  c.key ≠ "" ∧ (∀ x ∈ c.key.toList, x ≠ '=' ∧ x ≠ ':' ∧ x ≠ '\x7d') ∧ '\x7d' ∉ c.expected.toList

def Segment.WellFormed : Segment → Prop
  | .field name => name ≠ "" ∧ ∀ c ∈ name.toList, c ≠ '.' ∧ c ≠ '[' ∧ c ≠ ']'
  | .index position => position < positionLimit
  | .append => True
  | .filter constraints =>
    constraints ≠ [] ∧ (∀ c ∈ constraints, c.WellFormed) ∧ Balanced (filterTexts constraints)

def Path.WellFormed (path : Path) : Prop :=
  path ≠ [] ∧ ∀ segment ∈ path, segment.WellFormed

namespace Grammar

theorem Predicate.wellFormed {text : List Char} {c : Constraint} (h : Predicate text c) :
    c.WellFormed := by
  obtain @⟨key, expected, separator, hn, hk, -, he⟩ := h
  refine ⟨fun h => hn (String.ofList_inj.mp h), ?_, ?_⟩
  · simpa using hk
  · simpa using he

theorem Predicate.brackets {text : List Char} {c : Constraint} (h : Predicate text c) :
    brackets text = brackets (filterTexts [c]) := by
  obtain @⟨key, expected, separator, -, -, hs, -⟩ := h
  have hs : separator ≠ '[' ∧ separator ≠ ']' := by
    rcases hs with rfl | rfl <;> decide
  rw [brackets_cons_of_ne (by decide) (by decide), brackets_append, brackets_cons_of_ne hs.1 hs.2,
    brackets_append, brackets_cons_of_ne (by decide) (by decide)]
  simp [filterTexts]

theorem Padded.brackets {text : List Char} {c : Constraint} (h : Padded text c) :
    brackets text = brackets (filterTexts [c]) := by
  obtain ⟨hf, hp, hb⟩ := h
  rw [brackets_append, brackets_append, brackets_of_blank hf, brackets_of_blank hb, hp.brackets]
  simp

theorem Filter.brackets {text : List Char} {constraints : List Constraint}
    (h : Filter text constraints) : brackets text = brackets (filterTexts constraints) := by
  induction h with
  | last hp => exact hp.brackets
  | more hp _ ih =>
    rw [brackets_append, brackets_cons_of_ne (by decide) (by decide), hp.brackets, ih,
      ← brackets_append, filterTexts, filterTexts, ← List.flatMap_append]
    rfl

theorem Filter.wellFormed {text : List Char} {constraints : List Constraint}
    (h : Filter text constraints) : constraints ≠ [] ∧ ∀ c ∈ constraints, c.WellFormed := by
  induction h with
  | last hp =>
    obtain ⟨-, hp, -⟩ := hp
    exact ⟨List.cons_ne_nil _ _, by simpa using hp.wellFormed⟩
  | more hp _ ih =>
    obtain ⟨-, hp, -⟩ := hp
    exact ⟨List.cons_ne_nil _ _, List.forall_mem_cons.mpr ⟨hp.wellFormed, ih.2⟩⟩

theorem Inside.wellFormed {text : List Char} {segment : Segment} (h : Inside text segment)
    (hb : Balanced text) : segment.WellFormed := by
  cases h with
  | append => trivial
  | index _ _ hl => exact hl
  | filter hf =>
    refine ⟨hf.wellFormed.1, hf.wellFormed.2, ?_⟩
    rwa [← balanced_brackets, ← hf.brackets, balanced_brackets]

theorem Groups.wellFormed {text : List Char} {path : Path} (h : Groups text path) :
    ∀ segment ∈ path, segment.WellFormed := by
  induction h with
  | nil => nofun
  | cons hg _ ih =>
    obtain ⟨hb, hi⟩ := hg
    exact List.forall_mem_cons.mpr ⟨hi.wellFormed hb, ih⟩

theorem Token.wellFormed {text : List Char} {path : Path} (h : Token text path) :
    path.WellFormed := by
  cases h with
  | groups hne hg =>
    refine ⟨?_, hg.wellFormed⟩
    rintro rfl
    cases hg
    exact hne rfl
  | field hne hf hg =>
    refine ⟨List.cons_ne_nil _ _, List.forall_mem_cons.mpr ⟨⟨?_, ?_⟩, hg.wellFormed⟩⟩
    · exact fun h => hne (String.ofList_inj.mp h)
    · simpa using hf

theorem Derives.wellFormed {text : List Char} {path : Path} (h : Derives text path) :
    path.WellFormed := by
  induction h with
  | token ht => exact ht.wellFormed
  | dot ht _ ih =>
    exact ⟨by simp [ih.1], List.forall_mem_append.mpr ⟨ht.wellFormed.2, ih.2⟩⟩

end Grammar

theorem digitsValue_toDigits (n : Nat) : digitsValue (Nat.toDigits 10 n) = n :=
  Nat.ofDigitChars_toDigits (by decide) (by decide)

theorem Constraint.WellFormed.predicate {c : Constraint} (h : c.WellFormed) :
    Predicate c.chars c := by
  obtain ⟨hn, hk, he⟩ := h
  have hp := Predicate.intro (fun h => hn (String.toList_inj.mp h)) hk (.inl rfl) he
  rwa [String.ofList_toList, String.ofList_toList] at hp

theorem Constraint.WellFormed.padded {c : Constraint} (h : c.WellFormed) : Padded c.chars c := by
  have hp := Padded.intro (nofun : ∀ x ∈ [], _) h.predicate (nofun : ∀ x ∈ [], _)
  rwa [List.nil_append, List.append_nil] at hp

theorem filter_intercalate {constraints : List Constraint} (hn : constraints ≠ [])
    (h : ∀ c ∈ constraints, c.WellFormed) :
    Filter (List.intercalate [','] (constraints.map Constraint.chars)) constraints := by
  induction constraints with
  | nil => exact absurd rfl hn
  | cons c rest ih =>
    obtain ⟨hc, hr⟩ := List.forall_mem_cons.mp h
    cases rest with
    | nil => exact .last (by simpa using hc.padded)
    | cons d rest => exact .more hc.padded (ih (List.cons_ne_nil _ _) hr)

namespace Segment

theorem WellFormed.group {segment : Segment} (h : segment.WellFormed)
    (hf : ∀ name, segment ≠ .field name) : Group segment.chars segment := by
  cases segment with
  | field name => exact absurd rfl (hf name)
  | index position =>
    have hd : ∀ c ∈ Nat.toDigits 10 position, c.isDigit = true := fun c hc =>
      Nat.isDigit_of_mem_toDigits (b := 10) (by decide) (by decide) hc
    have hi := Inside.index Nat.toDigits_ne_nil hd (by rwa [digitsValue_toDigits])
    rw [digitsValue_toDigits] at hi
    refine .intro (balanced_iff.mpr (depth?_field fun c hc => ?_)) hi
    have := hd c hc
    refine ⟨?_, ?_, ?_⟩ <;> rintro rfl <;> nomatch this
  | append => exact .intro (by decide) .append
  | filter constraints =>
    obtain ⟨hn, hc, hb⟩ := h
    have hi := filter_intercalate hn hc
    refine .intro ?_ (.filter hi)
    rwa [← balanced_brackets, hi.brackets, balanced_brackets]

theorem WellFormed.token {segment : Segment} (h : segment.WellFormed) :
    Token segment.chars [segment] := by
  cases segment with
  | field name =>
    have ht := Token.field (fun he => h.1 (String.toList_inj.mp he)) h.2 .nil
    rwa [String.ofList_toList, List.append_nil] at ht
  | index | append | filter => exact (h.group nofun).token

end Segment

/-- A field after a token starts the next one; another segment goes on with it. -/
theorem derives_append {text : List Char} {path rest : Path} (ht : Token text path)
    (h : ∀ segment ∈ rest, segment.WellFormed) :
    Derives (text ++ rest.flatMap Segment.charsAfter) (path ++ rest) := by
  induction rest generalizing text path with
  | nil => simpa using Derives.token ht
  | cons segment rest ih =>
    obtain ⟨hs, hr⟩ := List.forall_mem_cons.mp h
    rw [List.flatMap_cons]
    cases segment with
    | field name => exact .dot ht (ih hs.token hr)
    | index | append | filter =>
      have hd := ih (ht.append (hs.group nofun).groups) hr
      rw [List.append_assoc, ← List.append_cons] at hd
      exact hd

/-- A well formed path is what its rendered text writes. -/
theorem Path.WellFormed.derives {path : Path} (h : path.WellFormed) :
    Derives path.chars path := by
  obtain ⟨hn, hs⟩ := h
  cases path with
  | nil => exact absurd rfl hn
  | cons first rest =>
    obtain ⟨hf, hr⟩ := List.forall_mem_cons.mp hs
    exact derives_append hf.token hr

theorem Path.parse_render {path : Path} (h : path.WellFormed) :
    Path.parse path.render = .ok path := by
  rw [Path.parse_eq_ok_iff, Path.render, String.toList_ofList]
  exact h.derives

theorem Path.WellFormed.render_ne_empty {path : Path} (h : path.WellFormed) :
    path.render ≠ "" := by
  intro he
  have hp := Path.parse_render h
  rw [he] at hp
  nomatch hp

/-- Paths that can be written, the empty one among them, have different texts. -/
theorem Path.eq_of_render_eq {path other : Path} (h : ∀ segment ∈ path, segment.WellFormed)
    (ho : ∀ segment ∈ other, segment.WellFormed) (he : path.render = other.render) :
    path = other := by
  by_cases hn : path = []
  · subst hn
    by_contra hne
    exact Path.WellFormed.render_ne_empty ⟨Ne.symm hne, ho⟩ he.symm
  · have hw : path.WellFormed := ⟨hn, h⟩
    have hne : other ≠ [] := by
      rintro rfl
      exact hw.render_ne_empty he
    have hp := Path.parse_render hw
    rw [he, Path.parse_render ⟨hne, ho⟩] at hp
    exact (Except.ok.inj hp).symm

theorem Path.wellFormed_of_parse {text : String} {path : Path} (h : Path.parse text = .ok path) :
    path.WellFormed :=
  (Path.parse_eq_ok_iff.mp h).wellFormed

/-- The parser gives the well formed paths and no others, and reads a rendered path back, so that
rendering loses nothing of a well formed path. -/
theorem parse_render_inverse :
    (∀ text path, Path.parse text = .ok path → path.WellFormed) ∧
    (∀ path : Path, path.WellFormed → Path.parse path.render = .ok path) ∧
    (∀ text path, Path.parse text = .ok path → Path.parse path.render = .ok path) ∧
    ∀ path other : Path, path.WellFormed → other.WellFormed → path.render = other.render →
      path = other := by
  refine ⟨fun _ _ => Path.wellFormed_of_parse, fun _ => Path.parse_render,
    fun _ _ h => Path.parse_render (Path.wellFormed_of_parse h), ?_⟩
  intro path other hp ho h
  have hr := Path.parse_render hp
  rw [h, Path.parse_render ho] at hr
  exact (Except.ok.inj hr).symm

theorem parse_render_inverse_friends :
    Path.WellFormed [.field "friends", .filter [⟨"k[", "x"⟩, ⟨"c", "]"⟩], .index 10, .append,
      .field "name"] ∧
    Path.parse "friends[{k[=x},{c=]}][10][].name" =
      .ok [.field "friends", .filter [⟨"k[", "x"⟩, ⟨"c", "]"⟩], .index 10, .append,
        .field "name"] := by
  have hb : Balanced (filterTexts [⟨"k[", "x"⟩, ⟨"c", "]"⟩]) := by decide
  have hw : Path.WellFormed [.field "friends", .filter [⟨"k[", "x"⟩, ⟨"c", "]"⟩], .index 10,
      .append, .field "name"] := by
    simp [Path.WellFormed, Segment.WellFormed, Constraint.WellFormed, positionLimit, UInt64.size,
      hb]
  exact ⟨hw, parse_render_inverse.2.1 _ hw⟩

end DocPath
