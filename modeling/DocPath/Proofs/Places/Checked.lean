import DocPath.Proofs.General
import DocPath.Proofs.Places.Reached

/-! # Plans in 64-bit arithmetic

Whether a list may be padded up to a position is decided with 64-bit numbers: one is added to the
position with a check, and the length of the list is taken off the sum without one. That difference
is never below zero, as only a position past the end of a list is asked for, so the plan of a write
is the one that is made with exact numbers.
-/

namespace DocPath

/-- Why a plan in 64-bit arithmetic stops: at a fault, or at a difference below zero. -/
inductive Halt where
  | fault (fault : TargetFault)
  | underflow
deriving DecidableEq

def checkedAdd? (a b : UInt64) : Option UInt64 :=
  if a.toNat + b.toNat < UInt64.size then some (a + b) else none

def subOrHalt (a b : UInt64) : Except Halt UInt64 :=
  if b ≤ a then .ok (a - b) else .error .underflow

/-- Whether a write may extend a list of this length up to a position, in 64-bit arithmetic. -/
def paddingChecked (position length : UInt64) : Except Halt Bool :=
  match checkedAdd? position 1 with
  | none => .ok false
  | some needed =>
    (subOrHalt needed length).map fun missing => decide (missing.toNat ≤ maxPadding + 1)

theorem toNat_of_checkedAdd? {a b c : UInt64} (h : checkedAdd? a b = some c) :
    c.toNat = a.toNat + b.toNat := by
  simp only [checkedAdd?] at h
  split at h
  · next hlt =>
    obtain rfl := Option.some.inj h
    rw [UInt64.toNat_add, Nat.mod_eq_of_lt hlt]
  · cases h

theorem checkedAdd?_eq_none_iff {a b : UInt64} :
    checkedAdd? a b = none ↔ UInt64.size ≤ a.toNat + b.toNat := by
  simp [checkedAdd?]

theorem paddingChecked_eq {position length : UInt64} (h : length ≤ position) :
    paddingChecked position length = .ok (paddingAllowed position.toNat length.toNat) := by
  rw [UInt64.le_iff_toNat_le] at h
  rw [paddingChecked, paddingAllowed]
  cases hn : checkedAdd? position 1 with
  | none =>
    have hs : UInt64.size ≤ position.toNat + 1 := checkedAdd?_eq_none_iff.mp hn
    simp [positionLimit, hs.not_gt]
  | some needed =>
    have hs : needed.toNat = position.toNat + 1 := toNat_of_checkedAdd? hn
    have hle : length ≤ needed := by
      rw [UInt64.le_iff_toNat_le]
      omega
    have hlt : position.toNat + 1 < positionLimit := hs ▸ needed.toNat_lt
    simp [subOrHalt, hle, Except.map, UInt64.toNat_sub_of_le _ _ hle, hs, hlt]

example : paddingChecked 18446744073709551615 0 = .ok false := rfl

example : paddingChecked 0 2 = .error .underflow := rfl

namespace Place

variable (place : Place)

def plannedPastChecked (position length : UInt64) : Except Halt (List Place) :=
  (paddingChecked position length).bind fun allowed =>
    if allowed then .ok [place.extend (.index position.toNat) none]
    else .error (.fault (.tooMuchPadding position.toNat place.location))

def followChecked : Segment → Except Halt (List Place)
  | .index position =>
    match place.value with
    | some (.list items) =>
      match items[position]? with
      | some child => .ok [place.extend (.index position) (some child)]
      | none => place.plannedPastChecked (.ofNat position) (.ofNat items.length)
    | none | some .null => place.plannedPastChecked (.ofNat position) 0
    | some other => .error (.fault (.listExpected place.location other.kind))
  | segment => (place.follow .write segment).mapError .fault

theorem plannedPastChecked_eq {position length : Nat} (hp : position < positionLimit)
    (hl : length ≤ position) :
    place.plannedPastChecked (.ofNat position) (.ofNat length) =
      (place.plannedPast .write position length).mapError .fault := by
  have hle : UInt64.ofNat length ≤ UInt64.ofNat position := by
    rw [UInt64.le_iff_toNat_le, UInt64.toNat_ofNat_of_lt' hp,
      UInt64.toNat_ofNat_of_lt' (hl.trans_lt hp)]
    exact hl
  rw [plannedPastChecked, paddingChecked_eq hle, UInt64.toNat_ofNat_of_lt' hp,
    UInt64.toNat_ofNat_of_lt' (hl.trans_lt hp)]
  simp only [plannedPast, Except.bind]
  split <;> rfl

theorem followChecked_eq {segment : Segment}
    (hs : ∀ position, segment = .index position → position < positionLimit) :
    place.followChecked segment = (place.follow .write segment).mapError .fault := by
  cases segment with
  | index position =>
    have hp := hs position rfl
    obtain ⟨location, value⟩ := place
    rcases value with _ | value
    · exact plannedPastChecked_eq _ hp (Nat.zero_le _)
    cases value with
    | null => exact plannedPastChecked_eq _ hp (Nat.zero_le _)
    | list items =>
      simp only [followChecked, follow]
      cases hc : items[position]? with
      | some child => rfl
      | none => exact plannedPastChecked_eq _ hp (List.getElem?_eq_none_iff.mp hc)
    | _ => rfl
  | _ => rfl

end Place

def Segment.advanceChecked (segment : Segment) (places : List Place) : Except Halt (List Place) :=
  (places.mapM (Place.followChecked · segment)).map List.flatten

theorem Segment.advanceChecked_eq {segment : Segment}
    (hs : ∀ position, segment = .index position → position < positionLimit) (places : List Place) :
    segment.advanceChecked places = (segment.advance .write places).mapError .fault := by
  rw [advanceChecked, mapM_mapError fun place _ => place.followChecked_eq hs, advance]
  cases places.mapM (Place.follow .write · segment) <;> rfl

namespace Path

def placesChecked (path : Path) (document : Json) : Except Halt (List Place) :=
  path.foldlM (fun places segment => segment.advanceChecked places) [Place.root document]

def FitsWord (path : Path) : Prop :=
  ∀ position, .index position ∈ path → position < positionLimit

/-- No plan halts for its arithmetic, and all come out as with exact numbers. -/
theorem placesChecked_eq {path : Path} (hp : path.FitsWord) (document : Json) :
    path.placesChecked document = (path.places .write document).mapError .fault := by
  induction path using List.reverseRecOn with
  | nil => rfl
  | append_singleton path last ih =>
    have hpath : FitsWord path := fun position hm => hp position (List.mem_append_left _ hm)
    have hlast : ∀ position, last = .index position → position < positionLimit :=
      fun position he => hp position (by simp [he])
    have hc : placesChecked (path ++ [last]) document =
        placesChecked path document >>= last.advanceChecked := by
      simp [placesChecked]
    rw [hc, ih hpath, places_append_singleton]
    cases places .write path document with
    | error => rfl
    | ok places => exact last.advanceChecked_eq hlast places

end Path

end DocPath
