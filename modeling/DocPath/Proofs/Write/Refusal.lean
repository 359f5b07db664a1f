import DocPath.Proofs.Json.Children
import DocPath.Proofs.Places.Composition
import DocPath.Proofs.Write.Atomicity
import DocPath.Proofs.Write.Single

/-! # Refused writes

A write is refused where a value cannot take the next segment of the path. All places of a segment
are found before the next one is looked at, so the error is that of the shortest way to such a
value, and among those of one length that of the first location in document order. What remains is
refused before the path is followed: writes to null, through no segments, or to elements as such.
-/

namespace DocPath

namespace Json

/-- Every list of the value, at any depth, has fewer than `2 ^ 63` elements, which is half of the
64-bit numbers. Every value in a memory with 64-bit addresses is so. -/
def FitsMemory (document : Json) : Prop :=
  document.Everywhere fun value => ∀ items, value = .list items → 2 * items.length < positionLimit

theorem FitsMemory.addressable {document : Json} (h : document.FitsMemory) :
    document.Addressable := by
  refine .of_everywhere h fun items hl => ?_
  have := hl items rfl
  simp only [positionLimit, UInt64.size] at this ⊢
  omega

end Json

theorem paddingAllowed_iff {position length : Nat} (h : 2 * length < positionLimit) :
    paddingAllowed position length = true ↔ position - length ≤ maxPadding := by
  simp only [paddingAllowed, Bool.and_eq_true, decide_eq_true_eq]
  simp only [maxPadding, positionLimit, UInt64.size] at h ⊢
  omega

/-- A value at a location that cannot take a segment of a write, and the fault that says so. Null
takes every step but one too far out, and a filter is never refused. -/
inductive Segment.Refuses (location : Location) (value : Json) : Segment → TargetFault → Prop where
  | field (name : String) : value.kind ≠ .null → value.kind ≠ .object →
      Refuses location value (.field name) (.objectExpected location value.kind)
  | index (position : Nat) : value.kind ≠ .null → value.kind ≠ .list →
      Refuses location value (.index position) (.listExpected location value.kind)
  | padding {items : List Json} {position : Nat} : value.orEmptyList = .list items →
      maxPadding < position - items.length →
        Refuses location value (.index position) (.tooMuchPadding position location)
  | append : value.kind ≠ .null → value.kind ≠ .list →
      Refuses location value .append (.listExpected location value.kind)

namespace Segment

variable {location : Location} {value : Json} {fault : TargetFault}

theorem refuses_field_iff {name : String} : Refuses location value (.field name) fault ↔
    value.kind ≠ .null ∧ value.kind ≠ .object ∧ fault = .objectExpected location value.kind := by
  constructor
  · rintro ⟨⟩
    exact ⟨‹_›, ‹_›, rfl⟩
  · rintro ⟨hn, ho, rfl⟩
    exact .field name hn ho

theorem refuses_index_iff {items : List Json} (hi : value.orEmptyList = .list items)
    {position : Nat} : Refuses location value (.index position) fault ↔
      maxPadding < position - items.length ∧ fault = .tooMuchPadding position location := by
  constructor
  · intro h
    cases h with
    | index _ hn hl => obtain ⟨rfl, -⟩ | rfl := orEmptyList_eq hi <;> contradiction
    | padding hi' hp =>
      obtain rfl := Json.list.inj (hi.symm.trans hi')
      exact ⟨hp, rfl⟩
  · rintro ⟨hp, rfl⟩
    exact .padding hi hp

theorem refuses_index_iff_of_kind (hn : value.kind ≠ .null) (hl : value.kind ≠ .list)
    {position : Nat} : Refuses location value (.index position) fault ↔
      fault = .listExpected location value.kind := by
  constructor
  · intro h
    cases h with
    | index => rfl
    | padding hi => obtain ⟨rfl, -⟩ | rfl := orEmptyList_eq hi <;> contradiction
  · rintro rfl
    exact .index position hn hl

theorem refuses_append_iff : Refuses location value .append fault ↔
    value.kind ≠ .null ∧ value.kind ≠ .list ∧ fault = .listExpected location value.kind := by
  constructor
  · rintro ⟨⟩
    exact ⟨‹_›, ‹_›, rfl⟩
  · rintro ⟨hn, hl, rfl⟩
    exact .append hn hl

theorem not_refuses_filter {constraints : List Constraint} :
    ¬ Refuses location value (.filter constraints) fault := by
  rintro ⟨⟩

end Segment

namespace Place

variable {place : Place} {fault : TargetFault}

theorem plannedPast_write_eq_error_iff {position length : Nat} (h : 2 * length < positionLimit) :
    place.plannedPast .write position length = .error fault ↔
      maxPadding < position - length ∧ fault = .tooMuchPadding position place.location := by
  simp only [plannedPast]
  split
  · next ha =>
    have := (paddingAllowed_iff h).mp ha
    simp only [reduceCtorEq, false_iff, not_and]
    omega
  · next ha =>
    rw [paddingAllowed_iff h] at ha
    rw [Except.error.injEq, eq_comm]
    exact (and_iff_right (by omega)).symm

theorem refuse_write_eq_error_iff {expected : TargetFault} :
    Access.write.refuse expected = .error fault ↔ fault = expected := by
  rw [Access.refuse, Except.error.injEq, eq_comm]

theorem follow_write_eq_error_iff {segment : Segment}
    (hm : ∀ items, place.value = some (.list items) → 2 * items.length < positionLimit) :
    place.follow .write segment = .error fault ↔
      segment.Refuses place.location (place.value.getD .null) fault := by
  obtain ⟨location, value⟩ := place
  cases segment with
  | field name =>
    rw [Segment.refuses_field_iff]
    rcases value with _ | value
    · simp [follow, planned, Json.kind]
    cases value with
    | null => simp [follow, planned, Json.kind]
    | object members =>
      simp only [follow]
      split <;> simp [planned, Json.kind]
    | _ => exact refuse_write_eq_error_iff.trans (by simp [Json.kind])
  | index position =>
    -- what is not there yet takes positions like an empty list
    have empty : plannedPast .write ⟨location, value⟩ position 0 = .error fault ↔
        Segment.Refuses location .null (.index position) fault := by
      have hi : Json.null.orEmptyList = .list [] := rfl
      rw [plannedPast_write_eq_error_iff (by decide), Segment.refuses_index_iff hi]
      rfl
    rcases value with _ | value
    · exact empty
    cases value with
    | null => exact empty
    | list items =>
      simp only [follow, Option.getD_some]
      split
      · next hc =>
        have hlt := (List.getElem?_eq_some_iff.mp hc).1
        refine iff_of_false (by rintro ⟨⟩) fun hr => ?_
        have := ((Segment.refuses_index_iff rfl).mp hr).1
        omega
      · exact (plannedPast_write_eq_error_iff (hm items rfl)).trans
          (Segment.refuses_index_iff rfl).symm
    | _ =>
      refine refuse_write_eq_error_iff.trans (Segment.refuses_index_iff_of_kind ?_ ?_).symm <;>
        simp [Json.kind]
  | append =>
    rw [Segment.refuses_append_iff]
    rcases value with _ | value
    · simp [follow, planned, Json.kind]
    cases value with
    | null => simp [follow, planned, Json.kind]
    | list items => simp [follow, Json.kind]
    | _ => exact refuse_write_eq_error_iff.trans (by simp [Json.kind])
  | filter constraints =>
    rw [iff_false_right Segment.not_refuses_filter]
    rcases value with _ | value
    · simp [follow]
    cases value <;> simp [follow]

end Place

namespace Segment

variable {access : Access} {segment : Segment} {places : List Place}

theorem exists_follow_of_advance {next : List Place}
    (h : segment.advance access places = .ok next) {place : Place} (hp : place ∈ places) :
    ∃ part, place.follow access segment = .ok part := by
  induction places generalizing next with
  | nil => nomatch hp
  | cons first places ih =>
    obtain ⟨front, back, hf, hb, -⟩ := advance_cons_eq_ok_iff.mp h
    rcases List.mem_cons.mp hp with rfl | hp
    · exact ⟨front, hf⟩
    · exact ih hb hp

theorem advance_eq_error_iff {fault : TargetFault} :
    segment.advance access places = .error fault ↔
      ∃ before place after, places = before ++ place :: after ∧
        (∀ p ∈ before, ∃ next, p.follow access segment = .ok next) ∧
          place.follow access segment = .error fault := by
  induction places with
  | nil =>
    refine iff_of_false nofun ?_
    rintro ⟨before, place, after, he, -⟩
    simp at he
  | cons first places ih =>
    rw [advance_cons]
    cases hf : first.follow access segment with
    | error first_fault =>
      constructor
      · rintro ⟨⟩
        exact ⟨[], first, places, rfl, nofun, hf⟩
      · rintro ⟨before, place, after, he, hb, hp⟩
        cases before with
        | nil =>
          obtain ⟨rfl, rfl⟩ := List.cons.inj he
          exact hf.symm.trans hp
        | cons p before =>
          obtain ⟨rfl, rfl⟩ := List.cons.inj he
          obtain ⟨next, hn⟩ := hb _ (List.mem_cons_self ..)
          rw [hf] at hn
          nomatch hn
    | ok front =>
      have hr : (Except.ok front).bind (fun front =>
          (segment.advance access places).map (front ++ ·)) = .error fault ↔
            segment.advance access places = .error fault := by
        cases segment.advance access places <;> simp [Except.bind, Except.map]
      rw [hr, ih]
      constructor
      · rintro ⟨before, place, after, rfl, hb, hp⟩
        exact ⟨first :: before, place, after, rfl, List.forall_mem_cons.mpr ⟨⟨front, hf⟩, hb⟩, hp⟩
      · rintro ⟨before, place, after, he, hb, hp⟩
        cases before with
        | nil =>
          obtain ⟨rfl, rfl⟩ := List.cons.inj he
          rw [hf] at hp
          nomatch hp
        | cons p before =>
          obtain ⟨rfl, rfl⟩ := List.cons.inj he
          exact ⟨before, place, after, rfl, (List.forall_mem_cons.mp hb).2, hp⟩

end Segment

namespace Path

variable {path : Path} {document : Json}

/-- A path fails at its first segment that fails from the places in front of it. -/
theorem places_eq_error_iff {access : Access} {fault : TargetFault} :
    path.places access document = .error fault ↔
      ∃ (k : Nat) (segment : Segment) (reached : List Place), path[k]? = some segment ∧
        places access (path.take k) document = .ok reached ∧
          segment.advance access reached = .error fault := by
  constructor
  · intro h
    induction path using List.reverseRecOn with
    | nil => nomatch h
    | append_singleton path last ih =>
      rw [places_append_singleton] at h
      cases hp : places access path document with
      | error first =>
        rw [hp] at h
        obtain rfl : first = fault := Except.error.inj h
        obtain ⟨k, segment, reached, hs, ht, ha⟩ := ih hp
        have hk := (List.getElem?_eq_some_iff.mp hs).1
        refine ⟨k, segment, reached, ?_, ?_, ha⟩
        · rw [List.getElem?_append_left hk, hs]
        · rw [List.take_append_of_le_length hk.le, ht]
      | ok reached =>
        rw [hp] at h
        exact ⟨path.length, last, reached, by simp, by simpa using hp, h⟩
  · rintro ⟨k, segment, reached, hs, ht, ha⟩
    have hd : path = path.take k ++ [segment] ++ path.drop (k + 1) := by
      obtain ⟨hk, rfl⟩ := List.getElem?_eq_some_iff.mp hs
      simp
    rw [hd, places, List.foldlM_append]
    change places access (path.take k ++ [segment]) document >>= _ = _
    rw [places_append_singleton, ht]
    change segment.advance access reached >>= _ = _
    rw [ha]
    rfl

/-- A location to which the first `k` segments of a path lead in a write, and which cannot take the
next one, with the fault that says so. -/
def Blocked (path : Path) (document : Json) (k : Nat) (location : Location) (fault : TargetFault) :
    Prop :=
  ∃ segment heads, path[k]? = some segment ∧ locations .write (path.take k) document = .ok heads ∧
    location ∈ heads ∧ segment.Refuses location (location.valueOrNull document) fault

theorem Blocked.take {j k : Nat} {location : Location} {fault : TargetFault}
    (h : path.Blocked document j location fault) (hjk : j < k) :
    Blocked (path.take k) document j location fault := by
  obtain ⟨segment, heads, hs, hh, hb⟩ := h
  refine ⟨segment, heads, ?_, ?_, hb⟩
  · rw [List.getElem?_take_of_lt hjk, hs]
  · rw [List.take_take, Nat.min_eq_left hjk.le, hh]

section Memory

variable (hm : document.FitsMemory)
include hm

theorem follow_write_eq_error_iff {places : List Place}
    (hp : path.places .write document = .ok places) {place : Place} (hplace : place ∈ places)
    {segment : Segment} {fault : TargetFault} :
    place.follow .write segment = .error fault ↔
      segment.Refuses place.location (place.location.valueOrNull document) fault := by
  have hg := get?_of_mem_places hp hplace
  rw [Location.valueOrNull, hg]
  refine Place.follow_write_eq_error_iff fun items hi => ?_
  rw [hi] at hg
  exact (Json.Everywhere.get? hm hg).here items rfl

/-- A path that fails is blocked after as few segments as can be, at the first location there. -/
theorem exists_blocked {fault : TargetFault} (h : path.places .write document = .error fault) :
    ∃ k before location after,
      locations .write (path.take k) document = .ok (before ++ location :: after) ∧
      path.Blocked document k location fault ∧
      ∀ other ∈ before, ∀ f, ¬ path.Blocked document k other f := by
  obtain ⟨k, segment, places, hs, ht, ha⟩ := places_eq_error_iff.mp h
  obtain ⟨before, place, after, rfl, hb, hf⟩ := Segment.advance_eq_error_iff.mp ha
  have hl : locations .write (path.take k) document =
      .ok (before.map Place.location ++ place.location :: after.map Place.location) :=
    locations_eq_ok_iff.mpr ⟨_, ht, by simp⟩
  have hm' : place ∈ before ++ place :: after := by simp
  refine ⟨k, _, place.location, _, hl, ⟨segment, _, hs, hl, by simp, ?_⟩, ?_⟩
  · exact (follow_write_eq_error_iff hm ht hm').mp hf
  · rintro other ho f ⟨segment', _, hs', -, -, hr⟩
    obtain ⟨p, hp, rfl⟩ := List.mem_map.mp ho
    obtain ⟨next, hn⟩ := hb p hp
    obtain rfl := Option.some.inj (hs.symm.trans hs')
    rw [(follow_write_eq_error_iff hm ht (List.mem_append_left _ hp)).mpr hr] at hn
    nomatch hn

theorem Blocked.exists_fault {k : Nat} {location : Location} {fault : TargetFault}
    (h : path.Blocked document k location fault) :
    ∃ first, path.places .write document = .error first := by
  obtain ⟨segment, heads, hs, hh, hl, hr⟩ := h
  obtain ⟨places, hp, rfl⟩ := locations_eq_ok_iff.mp hh
  obtain ⟨place, hplace, rfl⟩ := List.mem_map.mp hl
  have hf := (follow_write_eq_error_iff hm hp hplace).mpr hr
  cases ha : segment.advance .write places with
  | error first => exact ⟨first, places_eq_error_iff.mpr ⟨k, segment, places, hs, hp, ha⟩⟩
  | ok next =>
    obtain ⟨part, hpart⟩ := Segment.exists_follow_of_advance ha hplace
    rw [hf] at hpart
    nomatch hpart

theorem write_outcome_eq_error_iff (hd : document.kind ≠ .null) (hp : path ≠ [])
    (hf : path.endsInFilter = false) (value : Json) {error : PathError} :
    (path.write value document).outcome = .error error ↔
      path.locations .write document = .error error := by
  cases hl : path.locations .write document with
  | error first =>
    have hw : (path.write value document).outcome = .error first := by
      rw [write_of_locations_error hd hp hf hl]
    rw [hw, Except.error.injEq, Except.error.injEq]
  | ok locations =>
    have ha : Location.assignAll value locations document =
        ⟨(Location.assignAll value locations document).document, none⟩ := by
      rw [← assignAll_locations_fault value hm.addressable hl]
    rw [write_of_locations_ok hd hp hf hl ha]
    exact iff_of_false nofun nofun

end Memory

/-- A write fails before its path is followed, or with what its plan fails with. -/
theorem write_error_cases (hm : document.FitsMemory) {value : Json} {error : PathError}
    (h : (path.write value document).outcome = .error error) :
    (∃ argument, error = .missing argument) ∨ error = .untargetable path .elementWithoutKey ∨
      path.locations .write document = .error error := by
  by_cases hd : document.kind = .null
  · rw [write, if_pos hd] at h
    exact .inl ⟨_, (Except.error.inj h).symm⟩
  by_cases hp : path = []
  · subst hp
    rw [write, if_neg hd] at h
    exact .inl ⟨_, (Except.error.inj h).symm⟩
  cases hf : path.endsInFilter with
  | true =>
    simp only [write, if_neg hd, List.isEmpty_iff, if_neg hp, if_pos hf] at h
    exact .inr (.inl (Except.error.inj h).symm)
  | false => exact .inr (.inr ((write_outcome_eq_error_iff hm hd hp hf value).mp h))

end Path

def PathError.pathText : PathError → Option String
  | .malformed text _ => some text
  | .untargetable path _ => some path.render
  | .missing _ => none

/-- A write cannot be planned exactly where some location, reached by the first segments of the
path, cannot take the next one. The fault is about the first such location, in document order, after
as few segments as can be, and the error shows the path, in a text that is read as the path again. A
write to null, through no segments or to elements as such is refused whatever else there is, and any
other write exactly when it cannot be planned. -/
theorem write_refused {document : Json} (hm : document.FitsMemory) (path : Path) :
    ((∃ error, path.locations .write document = .error error) ↔
      ∃ k location fault, path.Blocked document k location fault) ∧
    (∀ error, path.locations .write document = .error error →
      ∃ k before location after fault, error = .untargetable path fault ∧
        Path.locations .write (path.take k) document = .ok (before ++ location :: after) ∧
        path.Blocked document k location fault ∧
        (∀ other ∈ before, ∀ f, ¬ path.Blocked document k other f) ∧
        ∀ j < k, ∀ other f, ¬ path.Blocked document j other f) ∧
    (∀ error, path.locations .write document = .error error →
      error.pathText = some path.render ∧
        ∀ text, Path.parse text = .ok path → Path.parse path.render = .ok path) ∧
    ∀ value, (document.kind = .null →
        (path.write value document).outcome = .error (.missing .document)) ∧
      (document.kind ≠ .null → path = [] →
        (path.write value document).outcome = .error (.missing .path)) ∧
      (document.kind ≠ .null → path ≠ [] → path.endsInFilter = true →
        (path.write value document).outcome = .error (.untargetable path .elementWithoutKey)) ∧
      (document.kind ≠ .null → path ≠ [] → path.endsInFilter = false → ∀ error,
        (path.write value document).outcome = .error error ↔
          path.locations .write document = .error error) := by
  refine ⟨⟨?_, ?_⟩, ?_, ?_, fun value => ⟨fun hd => ?_, fun hd hp => ?_, fun hd hp hf => ?_,
    fun hd hp hf error => Path.write_outcome_eq_error_iff hm hd hp hf value⟩⟩
  · rintro ⟨error, he⟩
    obtain ⟨fault, hp, -⟩ := Path.locations_eq_error_iff.mp he
    obtain ⟨k, before, location, after, -, hb, -⟩ := Path.exists_blocked hm hp
    exact ⟨k, location, fault, hb⟩
  · rintro ⟨k, location, fault, hb⟩
    obtain ⟨first, hp⟩ := hb.exists_fault hm
    exact ⟨_, Path.locations_eq_error_iff.mpr ⟨first, hp, rfl⟩⟩
  · intro error he
    obtain ⟨fault, hp, rfl⟩ := Path.locations_eq_error_iff.mp he
    obtain ⟨k, before, location, after, hl, hb, hfirst⟩ := Path.exists_blocked hm hp
    refine ⟨k, before, location, after, fault, rfl, hl, hb, hfirst, fun j hj other f hbj => ?_⟩
    -- a path blocked earlier would not have led to any locations here
    obtain ⟨first, hfail⟩ := (hbj.take hj).exists_fault hm
    obtain ⟨_, hok, -⟩ := Path.locations_eq_ok_iff.mp hl
    rw [hok] at hfail
    nomatch hfail
  · intro error he
    obtain ⟨fault, -, rfl⟩ := Path.locations_eq_error_iff.mp he
    exact ⟨rfl, fun text ht => Path.parse_render (Path.wellFormed_of_parse ht)⟩
  · rw [Path.write, if_pos hd]
    rfl
  · subst hp
    rw [Path.write, if_neg hd]
    rfl
  · simp [Path.write, hd, hp, hf, Written.failed]

def shallow : Json :=
  .object [("people", .list [.object [("s", .null), ("a", .object [("b", .bool true)])],
    .object [("s", .null), ("a", .string "x")]])]

def appendBelow : Path :=
  [.field "people", .filter [⟨"s", "null"⟩], .field "a", .field "b", .append]

theorem write_refused_shallow :
    shallow.FitsMemory ∧
    appendBelow.Blocked shallow 3 [.key "people", .index 1, .key "a"]
      (.objectExpected [.key "people", .index 1, .key "a"] .string) ∧
    ∃ error, appendBelow.locations .write shallow = .error error := by
  have hm : shallow.FitsMemory := by
    simp [shallow, Json.FitsMemory, positionLimit, UInt64.size]
  have hb : appendBelow.Blocked shallow 3 [.key "people", .index 1, .key "a"]
      (.objectExpected [.key "people", .index 1, .key "a"] .string) :=
    ⟨.field "b", [[.key "people", .index 0, .key "a"], [.key "people", .index 1, .key "a"]], rfl,
      rfl, by simp, .field "b" nofun nofun⟩
  exact ⟨hm, hb, (write_refused hm _).1.mpr ⟨3, _, _, hb⟩⟩

end DocPath
