import DocPath.Proofs.Places.Composition

/-! # Places by their pointers

The pointer of a location has one token for each step, which does not tell a position from a key of
its digits. At a place where a path arrives it still finds just what the steps find. So without an
append, reading leads to those locations of a write whose pointers find a value.
-/

namespace DocPath

theorem Text.splitAt_append_cons {sep : Char} {front : List Char} (h : sep ∉ front)
    (rest : List Char) : splitAt sep (front ++ sep :: rest) = front :: splitAt sep rest := by
  induction front with
  | nil => simp [splitAt]
  | cons c front ih =>
    obtain ⟨hc, hf⟩ := List.ne_and_not_mem_of_not_mem_cons h
    rw [List.cons_append, splitAt, if_neg (Ne.symm hc), ih hf]

namespace Pointer

theorem head?_toDigits (n : Nat) : (Nat.toDigits 10 n).head? = some '0' ↔ n = 0 := by
  have hd : ∀ m < 10, [Nat.digitChar m].head? = some '0' ↔ m = 0 := by decide
  induction n using Nat.strongRecOn with
  | ind n ih =>
    rcases Nat.lt_or_ge n 10 with hn | hn
    · rw [Nat.toDigits_of_lt_base hn]
      exact hd n hn
    · have hr : (Nat.toDigits 10 (n / 10)).head? = some '0' ↔ n / 10 = 0 :=
        ih (n / 10) (by omega)
      rw [Nat.toDigits_of_base_le (by decide) hn,
        List.head?_append_of_ne_nil _ Nat.toDigits_ne_nil, hr]
      omega

theorem index?_toDigits (n : Nat) : index? (Nat.toDigits 10 n) = some n := by
  have hd : isDigits (Nat.toDigits 10 n) = true :=
    (isDigits_iff _).mpr ⟨Nat.toDigits_ne_nil, fun c hc =>
      Nat.isDigit_of_mem_toDigits (by decide) (by decide) hc⟩
  have hz : ((Nat.toDigits 10 n).length == 1 || (Nat.toDigits 10 n).head? != some '0') = true := by
    rw [Bool.or_eq_true, bne_iff_ne, Ne, head?_toDigits, or_iff_not_imp_right, not_not]
    rintro rfl
    rfl
  rw [index?, hd, hz, digitsValue_toDigits]
  rfl

theorem escape_toDigits (n : Nat) : escape (Nat.toDigits 10 n) = Nat.toDigits 10 n := by
  refine (List.flatMap_congr fun c hc => ?_).trans (List.flatMap_singleton' _)
  have hd : c.isDigit = true := Nat.isDigit_of_mem_toDigits (by decide) (by decide) hc
  have ht : c ≠ '~' := by
    rintro rfl
    nomatch hd
  have hs : c ≠ '/' := by
    rintro rfl
    nomatch hd
  rw [if_neg ht, if_neg hs]

def encode (c : Char) (code text : List Char) : List Char :=
  text.flatMap fun d => if d = c then code else [d]

/-- Writes a character in the place of every occurrence of a tilde with a digit. -/
def decode (digit c : Char) : List Char → List Char
  | '~' :: d :: rest =>
    if d = digit then c :: decode digit c rest else '~' :: decode digit c (d :: rest)
  | d :: rest => d :: decode digit c rest
  | [] => []

theorem decode_cons_of_ne {digit c d : Char} (h : d ≠ '~') (rest : List Char) :
    decode digit c (d :: rest) = d :: decode digit c rest := by
  rw [decode]
  rintro _ _ rfl
  exact absurd rfl h

theorem decode_tilde {digit c : Char} {rest : List Char} (h : rest.head? ≠ some digit) :
    decode digit c ('~' :: rest) = '~' :: decode digit c rest := by
  cases rest with
  | nil => rfl
  | cons d rest => rw [decode, if_neg fun hd => h (congrArg some hd)]

theorem head?_decode_slash {text : List Char} (h : text.head? ≠ some '0') :
    (decode '1' '/' text).head? ≠ some '0' := by
  rcases text with _ | ⟨d, rest⟩
  · exact h
  by_cases hd : d = '~'
  · subst hd
    by_cases hr : rest.head? = some '1'
    · obtain ⟨rest, rfl⟩ := List.head?_eq_some_iff.mp hr
      simp [decode]
    · simp [decode_tilde hr]
  · rwa [decode_cons_of_ne hd]

/-- Tildes are escaped first, so that those of the escaped slashes stay. -/
theorem escape_eq_encode (key : List Char) :
    escape key = encode '/' ['~', '1'] (encode '~' ['~', '0'] key) := by
  rw [escape, encode, encode, List.flatMap_assoc]
  congr 1
  funext c
  by_cases hc : c = '~'
  · subst hc
    rfl
  · simp [hc]

/-- Slashes are unescaped first, so that a tilde which was escaped opens no code. -/
theorem unescape_eq_decode (token : List Char) :
    unescape token = decode '0' '~' (decode '1' '/' token) := by
  fun_induction unescape token with
  | case1 rest ih => simp [decode, decode_cons_of_ne, ih]
  | case2 rest ih => simp [decode, decode_cons_of_ne, ih]
  | case3 c rest h0 h1 ih =>
    by_cases hc : c = '~'
    · subst hc
      have hr (digit : Char) (hd : ∀ tail, rest ≠ digit :: tail) : rest.head? ≠ some digit := by
        intro he
        obtain ⟨tail, ht⟩ := List.head?_eq_some_iff.mp he
        exact hd tail ht
      have hs := hr '1' fun tail => h1 tail rfl
      rw [decode_tilde hs, decode_tilde (head?_decode_slash (hr '0' fun tail => h0 tail rfl)), ih]
    · rw [decode_cons_of_ne hc, decode_cons_of_ne hc, ih]
  | case4 => rfl

end Pointer

theorem Step.slash_not_mem_token (step : Step) : '/' ∉ step.token := by
  cases step with
  | key name => exact Pointer.slash_not_mem_escape name.toList
  | index position =>
    intro h
    nomatch Nat.isDigit_of_mem_toDigits (b := 10) (by decide) (by decide) h

def Step.asKey : Step → Step
  | .key name => .key name
  | .index position => .key (String.ofList (Nat.toDigits 10 position))

namespace Step

theorem token_asKey (step : Step) : step.asKey.token = step.token := by
  cases step with
  | key name => rfl
  | index position => rw [asKey, token, String.toList_ofList, Pointer.escape_toDigits, token]

theorem token_eq_iff {step other : Step} : step.token = other.token ↔ step.asKey = other.asKey := by
  have key (step : Step) : step.asKey = .key (String.ofList (Pointer.unescape step.token)) := by
    rw [← token_asKey]
    cases step <;> rw [asKey, token, Pointer.unescape_escape, String.ofList_toList]
  constructor
  · intro h
    rw [key, key other, h]
  · intro h
    rw [← token_asKey, h, token_asKey]

end Step

/-- In a value of its kind, a step and its token lead to the same. -/
theorem Json.Takes.atToken?_eq {value : Json} {step : Step} (h : value.Takes step) :
    value.atToken? step.token = value.child? step := by
  cases step with
  | key name =>
    obtain ⟨members, hm⟩ := h
    cases value with
    | null => rfl
    | object members =>
      rw [Step.token, atToken?, Pointer.unescape_escape, String.ofList_toList]
      rfl
    | _ => cases hm
  | index position =>
    obtain ⟨items, hi⟩ := h
    cases value with
    | null => rfl
    | list items =>
      rw [Step.token, atToken?, Pointer.index?_toDigits]
      rfl
    | _ => cases hi

namespace Location

theorem splitAt_tokens (first : Step) (rest : Location) :
    Text.splitAt '/' (first.token ++ rest.flatMap fun step => '/' :: step.token) =
      first.token :: rest.map Step.token := by
  induction rest generalizing first with
  | nil =>
    rw [List.flatMap_nil, List.append_nil, Text.splitAt_of_not_mem first.slash_not_mem_token]
    rfl
  | cons step rest ih =>
    rw [List.flatMap_cons, List.cons_append,
      Text.splitAt_append_cons first.slash_not_mem_token, ih, List.map_cons]

theorem find?_eq_foldlM (location : Location) (document : Json) :
    location.find? document = (location.map Step.token).foldlM Json.atToken? document := by
  cases location with
  | nil => rfl
  | cons first rest =>
    rw [find?, Json.atPointer?, pointer, String.toList_ofList, List.flatMap_cons,
      List.cons_append, List.map_cons, ← splitAt_tokens]
    rfl

theorem find?_append_singleton (front : Location) (step : Step) (document : Json) :
    find? (front ++ [step]) document = (find? front document).bind (·.atToken? step.token) := by
  rw [find?_eq_foldlM, find?_eq_foldlM, List.map_append, List.foldlM_append]
  exact congrArg _ (funext fun value => Option.bind_fun_some (value.atToken? step.token))

variable {location other : Location}

theorem pointer_eq_iff_token :
    location.pointer = other.pointer ↔ location.map Step.token = other.map Step.token := by
  constructor
  · intro h
    have h : (location.flatMap fun step => '/' :: step.token) =
        other.flatMap fun step => '/' :: step.token := String.ofList_injective h
    cases location with
    | nil =>
      cases other with
      | nil => rfl
      | cons => nomatch h
    | cons first rest =>
      cases other with
      | nil => nomatch h
      | cons first' rest' =>
        rw [List.flatMap_cons, List.flatMap_cons, List.cons_append, List.cons_append,
          List.cons.injEq] at h
        have hs := congrArg (Text.splitAt '/') h.2
        rwa [splitAt_tokens, splitAt_tokens] at hs
  · intro h
    have hp (location : Location) : location.pointer =
        String.ofList ((location.map Step.token).flatMap ('/' :: ·)) := by
      rw [pointer, List.flatMap_map]
    rw [hp, hp other, h]

theorem pointer_eq_iff :
    location.pointer = other.pointer ↔ location.map Step.asKey = other.map Step.asKey := by
  rw [pointer_eq_iff_token]
  induction location generalizing other with
  | nil => simp
  | cons step rest ih =>
    cases other with
    | nil => simp
    | cons step' rest' => simp [Step.token_eq_iff, ih]

theorem find?_of_get? {document value : Json} (h : location.get? document = some value) :
    location.find? document = some value := by
  induction location using List.reverseRecOn generalizing value with
  | nil => exact h
  | append_singleton front step ih =>
    rw [get?_append_singleton, Option.bind_eq_some_iff] at h
    obtain ⟨node, hf, hc⟩ := h
    have ht : node.Takes step := (Access.opens_of_child? .read hc).takes
    rw [find?_append_singleton, ih hf, Option.bind_some, ht.atToken?_eq, hc]

end Location

namespace Path

variable {path : Path} {document : Json}

theorem find?_of_mem_places {access : Access} {places : List Place}
    (h : path.places access document = .ok places) {place : Place} (hp : place ∈ places) :
    place.location.find? document = place.value := by
  refine places_induction (motive := fun _ places =>
    ∀ place ∈ places, place.location.find? document = place.value) ?_ ?_ h place hp
  · exact List.forall_mem_singleton.mpr rfl
  · intro path segment places next _ ih hn p hp
    obtain ⟨q, hq, part, hf, hp⟩ := Segment.exists_of_mem_advance hn hp
    obtain ⟨step, ht, rfl⟩ := Place.below_of_mem hf hp
    rw [Place.extend, Location.find?_append_singleton, ih q hq]
    cases hv : q.value with
    | none => rfl
    | some value =>
      rw [hv] at ht
      exact ht.atToken?_eq

/-- Of the locations that a write plans, reading finds those where there is a value. -/
theorem locations_read_of_write (ha : .append ∉ path) {targets : List Location}
    (h : path.locations .write document = .ok targets) :
    path.locations .read document =
      .ok (targets.filter fun location => (location.find? document).isSome) ∧
    ∀ found, path.locations .read document = .ok found → found.Sublist targets := by
  obtain ⟨places, hp, rfl⟩ := locations_eq_ok_iff.mp h
  have hr : path.places .read document = .ok (places.filter fun place => place.value.isSome) :=
    places_eq_ok_iff.mpr (reach?_read_of_write ha rfl (places_eq_ok_iff.mp hp))
  have hl : path.locations .read document =
      .ok ((places.map Place.location).filter fun location =>
        (location.find? document).isSome) := by
    refine locations_eq_ok_iff.mpr ⟨_, hr, ?_⟩
    rw [List.filter_map]
    refine congrArg (List.map Place.location) (List.filter_congr fun place hm => ?_)
    rw [Function.comp_apply, find?_of_mem_places hp hm]
  refine ⟨hl, fun found hf => ?_⟩
  rw [hl] at hf
  cases hf
  exact List.filter_sublist

def slashedKeys : Json :=
  .object [("a/b", .list [.object [("~", .string "CA")], .list [.null],
    .object [("~", .string "CA"), ("0", .null)]])]

theorem locations_read_of_write_escaped :
    Segment.append ∉ [.field "a/b", .filter [⟨"~", "CA"⟩], .field "0"] ∧
    Path.locations .write [.field "a/b", .filter [⟨"~", "CA"⟩], .field "0"] slashedKeys =
      .ok [[.key "a/b", .index 0, .key "0"], [.key "a/b", .index 2, .key "0"]] ∧
    Path.locations .read [.field "a/b", .filter [⟨"~", "CA"⟩], .field "0"] slashedKeys =
      .ok [[.key "a/b", .index 2, .key "0"]] := by
  have hw : Path.locations .write [.field "a/b", .filter [⟨"~", "CA"⟩], .field "0"] slashedKeys =
      .ok [[.key "a/b", .index 0, .key "0"], [.key "a/b", .index 2, .key "0"]] := rfl
  exact ⟨by decide, hw, (locations_read_of_write (by decide) hw).1⟩

end Path

theorem Path.exists_values_find? (path : Path) (document : Json) :
    ∃ locations values, path.locations .read document = .ok locations ∧
      path.values document = .ok values ∧
      locations.map (·.find? document) = values.map some := by
  obtain ⟨places, hp, hv⟩ := path.exists_places_read_values document
  refine ⟨places.map Place.location, document.valuesAlong path,
    locations_eq_ok_iff.mpr ⟨places, hp, rfl⟩, path.values_eq_valuesAlong document, ?_⟩
  rw [← hv, List.map_map]
  exact List.map_congr_left fun place hm => find?_of_mem_places hp hm

/-- The pointer of a place finds just what the path has found there: the value that the document
has at the location, or nothing where there is none yet; so the values of a path are those that
the pointers of its locations find. Whatever the steps of a location lead to, its pointer finds. Two
locations have the same pointer exactly when they are the same with their positions written as keys.
Keys are escaped tilde first and unescaped slash first. -/
theorem pointers_find_places (document : Json) :
    (∀ (access : Access) (path : Path) (places : List Place),
      path.places access document = .ok places → ∀ place ∈ places,
        place.location.get? document = place.value ∧
          place.location.find? document = place.value) ∧
    (∀ path : Path, ∃ locations values, path.locations .read document = .ok locations ∧
      path.values document = .ok values ∧
      locations.map (·.find? document) = values.map some) ∧
    (∀ (location : Location) (value : Json), location.get? document = some value →
      location.find? document = some value) ∧
    (∀ location other : Location,
      location.pointer = other.pointer ↔ location.map Step.asKey = other.map Step.asKey) ∧
    (∀ key, Pointer.escape key =
      Pointer.encode '/' ['~', '1'] (Pointer.encode '~' ['~', '0'] key)) ∧
    ∀ token, Pointer.unescape token = Pointer.decode '0' '~' (Pointer.decode '1' '/' token) := by
  refine ⟨fun access path places hp place hm => ?_, fun path => path.exists_values_find? document,
    fun location value => Location.find?_of_get?, fun location other => Location.pointer_eq_iff,
    Pointer.escape_eq_encode, Pointer.unescape_eq_decode⟩
  exact ⟨Path.get?_of_mem_places hp hm, Path.find?_of_mem_places hp hm⟩

def escapedKeys : Json := .object [("~1", .object [("0", .list [.null])])]

theorem pointers_find_places_escaped :
    Path.places .write [.field "~1", .field "0", .index 1] escapedKeys =
      .ok [⟨[.key "~1", .key "0", .index 1], none⟩] ∧
    Location.find? [.key "~1", .key "0", .index 1] escapedKeys = none ∧
    Location.find? [.key "~1", .key "0"] escapedKeys = some (.list [.null]) := by
  have hp : Path.places .write [.field "~1", .field "0", .index 1] escapedKeys =
      .ok [⟨[.key "~1", .key "0", .index 1], none⟩] := rfl
  obtain ⟨hw, -, hg, -⟩ := pointers_find_places escapedKeys
  exact ⟨hp, (hw .write _ _ hp _ (List.mem_singleton_self _)).2, hg _ _ rfl⟩

end DocPath
