import DocPath.Proofs.Path.Rendering

/-! # Joined path texts

Two texts that write paths may be joined by a dot, or directly where the second one opens a bracket.
The joined text writes the first path and then the second one. A text that writes a path can be cut
at any dot behind a balanced front, and then both parts write paths.
-/

namespace DocPath

open Grammar PathText

namespace Grammar

variable {text more : List Char} {path rest : Path}

theorem Derives.append_dot (h : Derives text path) (h' : Derives more rest) :
    Derives (text ++ '.' :: more) (path ++ rest) := by
  induction h with
  | token ht => exact .dot ht h'
  | dot ht _ ih =>
    rw [List.append_assoc, List.append_assoc]
    exact .dot ht ih

theorem Token.append_open (h : Token text path) (h' : Derives ('[' :: more) rest) :
    Derives (text ++ '[' :: more) (path ++ rest) := by
  generalize he : '[' :: more = whole at h'
  cases h' with
  | token ht =>
    subst he
    exact .token (h.append ht.groups_of_open)
  | @dot first back _ _ ht hr =>
    cases first with
    | nil => nomatch he
    | cons c first =>
      obtain ⟨rfl, -⟩ := List.cons.inj he
      rw [← List.append_assoc, ← List.append_assoc]
      exact .dot (h.append ht.groups_of_open) hr

theorem Derives.append_open (h : Derives text path) (h' : Derives ('[' :: more) rest) :
    Derives (text ++ '[' :: more) (path ++ rest) := by
  induction h with
  | token ht => exact ht.append_open h'
  | dot ht _ ih =>
    rw [List.append_assoc, List.append_assoc]
    exact .dot ht ih

/-- A token reaches up to the first dot outside of brackets: a dot behind a balanced front stands
at its end or after it. -/
theorem Token.dot_cases (h : Token text path) {front back : List Char}
    (hb : Balanced front) (he : text ++ '.' :: more = front ++ '.' :: back) :
    front = text ∧ back = more ∨
      ∃ between, front = text ++ '.' :: between ∧ more = between ++ '.' :: back := by
  obtain ⟨between, rfl, ht⟩ | ⟨between, rfl, ht⟩ := List.append_eq_append_iff.mp he
  · rcases between with _ | ⟨c, between⟩
    · obtain ⟨-, rfl⟩ := List.cons.inj ht
      exact .inl ⟨List.append_nil text, rfl⟩
    · obtain ⟨rfl, rfl⟩ := List.cons.inj ht
      exact .inr ⟨between, rfl, rfl⟩
  · rcases between with _ | ⟨c, between⟩
    · obtain ⟨-, rfl⟩ := List.cons.inj ht
      exact .inl ⟨(List.append_nil front).symm, rfl⟩
    · obtain ⟨rfl, -⟩ := List.cons.inj ht
      exact absurd ⟨rfl, rfl⟩ (h.dotless.of_append (balanced_iff.mp hb)).1

/-- A text that writes a path is cut at a dot outside of brackets into two that write paths. -/
theorem Derives.cut {front back : List Char} (h : Derives (front ++ '.' :: back) path)
    (hb : Balanced front) :
    ∃ first last, Derives front first ∧ Derives back last ∧ path = first ++ last := by
  generalize he : front ++ '.' :: back = text at h
  induction h generalizing front with
  | token ht =>
    subst he
    exact absurd ⟨rfl, rfl⟩ (ht.dotless.of_append (balanced_iff.mp hb)).1
  | dot ht hr ih =>
    obtain ⟨rfl, rfl⟩ | ⟨between, rfl, rfl⟩ := ht.dot_cases hb he.symm
    · exact ⟨_, _, .token ht, hr, rfl⟩
    · rw [balanced_iff, depth?_append, ht.depth?, Option.bind_some,
        depth?_cons_of_ne (by decide) (by decide), ← balanced_iff] at hb
      obtain ⟨first, last, hf, hl, rfl⟩ := ih hb rfl
      exact ⟨_, last, .dot ht hf, hl, (List.append_assoc ..).symm⟩

end Grammar

theorem toList_join_dot (text more : String) :
    (text ++ "." ++ more).toList = text.toList ++ '.' :: more.toList := by
  simp

/-- Joined texts are read as joined paths: with a dot between them always, and without one where the
second text opens a bracket. In turn, where texts joined by a dot are read as a path and the
brackets of the first one are balanced, both texts are read, as the two parts of that path. -/
theorem parse_join (text more : String) :
    (∀ path rest, Path.parse text = .ok path → Path.parse more = .ok rest →
      Path.parse (text ++ "." ++ more) = .ok (path ++ rest) ∧
      (more.toList.head? = some '[' → Path.parse (text ++ more) = .ok (path ++ rest))) ∧
    ∀ whole, Path.parse (text ++ "." ++ more) = .ok whole → Balanced text.toList →
      ∃ path rest, Path.parse text = .ok path ∧ Path.parse more = .ok rest ∧
        whole = path ++ rest := by
  simp only [Path.parse_eq_ok_iff, toList_join_dot]
  refine ⟨fun path rest h h' => ⟨h.append_dot h', fun ho => ?_⟩, fun whole h hb => h.cut hb⟩
  obtain ⟨inside, hi⟩ := List.head?_eq_some_iff.mp ho
  rw [hi] at h'
  rw [String.toList_append, hi]
  exact h.append_open h'

theorem parse_join_filter :
    Path.parse "a[{k=x.y}]" = .ok [.field "a", .filter [⟨"k", "x.y"⟩]] ∧
    Path.parse "[0].b" = .ok [.index 0, .field "b"] ∧
    Path.parse ("a[{k=x.y}]" ++ "." ++ "[0].b") =
      .ok [.field "a", .filter [⟨"k", "x.y"⟩], .index 0, .field "b"] ∧
    Path.parse ("a[{k=x.y}]" ++ "[0].b") =
      .ok [.field "a", .filter [⟨"k", "x.y"⟩], .index 0, .field "b"] ∧
    Balanced "a[{k=x.y}]".toList ∧
    ∃ path rest, Path.parse "a[{k=x.y}]" = .ok path ∧ Path.parse "[0].b" = .ok rest ∧
      [.field "a", .filter [⟨"k", "x.y"⟩], .index 0, .field "b"] = path ++ rest := by
  have hb : Balanced (filterTexts [⟨"k", "x.y"⟩]) := by decide
  have hp : Path.parse "a[{k=x.y}]" = .ok [.field "a", .filter [⟨"k", "x.y"⟩]] :=
    @Path.parse_render [.field "a", .filter [⟨"k", "x.y"⟩]]
      (by simp [Path.WellFormed, Segment.WellFormed, Constraint.WellFormed, hb])
  have hr : Path.parse "[0].b" = .ok [.index 0, .field "b"] :=
    @Path.parse_render [.index 0, .field "b"]
      (by simp [Path.WellFormed, Segment.WellFormed, positionLimit, UInt64.size])
  obtain ⟨hjoin, hcut⟩ := parse_join "a[{k=x.y}]" "[0].b"
  obtain ⟨hdot, hopen⟩ := hjoin _ _ hp hr
  have hbal : Balanced "a[{k=x.y}]".toList := by decide
  exact ⟨hp, hr, hdot, hopen (by decide), hbal, hcut _ hdot hbal⟩

end DocPath
