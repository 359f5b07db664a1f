import DocPath.Proofs.Places.Read

/-! # Places that exist

Reading and writing follow a path by the same rules, apart from what a write would create. Below a
place without a value there is nothing but such places. So without an append the places for reading
are those of the places for writing that have a value.
-/

namespace DocPath

namespace Place

variable {place : Place} {segment : Segment} {next : List Place}

theorem value_of_mem_follow_none (hv : place.value = none)
    (h : place.follow .write segment = .ok next) {p : Place} (hp : p ∈ next) : p.value = none := by
  have ha : AddressableNode place.value := hv ▸ .none
  obtain ⟨step, -, -, rfl⟩ := next_of_mem (fun _ => ha) h hp
  rw [extend, hv, Option.bind_none]

theorem follow_read_none (location : Location) (segment : Segment) :
    follow .read ⟨location, none⟩ segment = .ok [] := by
  cases segment <;> rfl

theorem follow_read_of_write (hs : segment ≠ .append)
    (h : place.follow .write segment = .ok next) :
    place.follow .read segment = .ok (next.filter fun p => p.value.isSome) := by
  obtain ⟨location, value⟩ := place
  have concrete (step : Step) (h : follow .write ⟨location, value⟩ step.segment = .ok next) :
      follow .read ⟨location, value⟩ step.segment =
        .ok (next.filter fun p => p.value.isSome) := by
    rw [follow_segment (opens_of_follow_segment h)] at h
    cases h
    rcases value with _ | value
    · exact follow_read_none location step.segment
    cases hc : value.child? step with
    | none =>
      rw [follow_read_of_child?_eq_none location hc, Option.bind_some, hc]
      rfl
    | some child =>
      rw [follow_segment_of_child? .read location hc, Option.bind_some, hc]
      rfl
  cases segment with
  | field name => exact concrete (.key name) h
  | index position => exact concrete (.index position) h
  | append => exact absurd rfl hs
  | filter constraints =>
    rcases value with _ | value
    · cases h
      rfl
    cases value with
    | list items =>
      cases h
      rw [List.filter_eq_self.mpr]
      · rfl
      · intro p hp
        obtain ⟨entry, -, rfl⟩ := List.mem_map.mp hp
        rfl
    | _ =>
      cases h
      rfl

end Place

namespace Path

variable {path : Path} {place : Place} {places : List Place}

theorem value_of_mem_reach?_none (hv : place.value = none)
    (h : path.reach? .write place = some places) {p : Place} (hp : p ∈ places) :
    p.value = none := by
  induction path generalizing place places with
  | nil =>
    cases h
    exact List.mem_singleton.mp hp ▸ hv
  | cons segment rest ih =>
    obtain ⟨next, hf, hg⟩ := reach?_cons_eq_some_iff.mp h
    obtain ⟨q, hq, front, hr, hp⟩ := mem_of_gather?_eq_some hg hp
    exact ih (Place.value_of_mem_follow_none hv hf hq) hr hp

/-- Of the places that a write plans, reading finds those that have a value. -/
theorem reach?_read_of_write (ha : .append ∉ path) (hv : place.value.isSome = true)
    (h : path.reach? .write place = some places) :
    path.reach? .read place = some (places.filter fun p => p.value.isSome) := by
  induction path generalizing place places with
  | nil =>
    cases h
    simp [reach?, hv]
  | cons segment rest ih =>
    simp only [List.mem_cons, not_or] at ha
    obtain ⟨next, hf, hg⟩ := reach?_cons_eq_some_iff.mp h
    have hr : place.follow .read segment = _ := Place.follow_read_of_write (Ne.symm ha.1) hf
    refine reach?_cons_eq_some_iff.mpr ⟨_, hr, ?_⟩
    rw [gather?_filter]
    have below : ∀ q ∈ next, ∀ front, reach? .write rest q = some front →
        ∃ front', (if q.value.isSome = true then reach? .read rest q else some []) = some front' ∧
          (front.filter fun p => p.value.isSome) = front' := by
      rintro q - front hq
      refine ⟨_, ?_, rfl⟩
      split
      · next hs => exact ih ha.2 hs hq
      · next hs =>
        have hn : q.value = none := Option.not_isSome_iff_eq_none.mp hs
        rw [List.filter_eq_nil_iff.mpr]
        intro p hp
        rw [value_of_mem_reach?_none hn hq hp]
        exact Bool.false_ne_true
    obtain ⟨_, hg', rfl⟩ := gather?_related (r := fun front front' =>
      (front.filter fun p => p.value.isSome) = front') rfl
        (fun h h' => by rw [List.filter_append, h, h']) below hg
    exact hg'

end Path

end DocPath
