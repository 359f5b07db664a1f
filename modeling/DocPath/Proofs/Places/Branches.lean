import DocPath.Places

/-! # Places branch by branch

The places of a path are found segment by segment, over all branches at once. Following one branch
to its end before the next one gives the same places, and fails for the same documents. What lies
below a place depends on its value alone; its location is only put in front.
-/

namespace DocPath

section Gather

variable {α β γ : Type}

/-- The results for all elements, one after the other; `none` where one fails. -/
def gather? (f : α → Option (List β)) : List α → Option (List β)
  | [] => some []
  | a :: as => (f a).bind fun front => (gather? f as).map (front ++ ·)

@[simp] theorem gather?_nil (f : α → Option (List β)) : gather? f [] = some [] := rfl

theorem gather?_cons (f : α → Option (List β)) (a : α) (as : List α) :
    gather? f (a :: as) = (f a).bind fun front => (gather? f as).map (front ++ ·) := rfl

theorem gather?_singleton (f : α → Option (List β)) (a : α) : gather? f [a] = f a := by
  cases h : f a <;> simp [gather?_cons, h]

theorem gather?_append (f : α → Option (List β)) (as bs : List α) :
    gather? f (as ++ bs) =
      (gather? f as).bind fun front => (gather? f bs).map (front ++ ·) := by
  induction as with
  | nil => simp
  | cons a as ih =>
    simp only [List.cons_append, gather?_cons, ih]
    cases f a <;> cases gather? f as <;> cases gather? f bs <;> simp

theorem gather?_bind (f : α → Option (List β)) (g : β → Option (List γ)) (as : List α) :
    (gather? f as).bind (gather? g) = gather? (fun a => (f a).bind (gather? g)) as := by
  induction as with
  | nil => rfl
  | cons a as ih =>
    simp only [gather?_cons, ← ih]
    cases f a with
    | none => rfl
    | some front =>
      cases gather? f as with
      | none => cases h : gather? g front <;> simp [h]
      | some back => simp [gather?_append]

theorem gather?_eq_flatMap {f : α → Option (List β)} {g : α → List β} {as : List α}
    (h : ∀ a ∈ as, f a = some (g a)) : gather? f as = some (as.flatMap g) := by
  induction as with
  | nil => rfl
  | cons a as ih =>
    obtain ⟨ha, hr⟩ := List.forall_mem_cons.mp h
    rw [gather?_cons, ha, ih hr]
    rfl

theorem gather?_some (as : List α) : gather? (fun a => some [a]) as = some as := by
  rw [gather?_eq_flatMap fun a _ => rfl, List.flatMap_singleton']

theorem gather?_map (f : β → Option (List γ)) (g : α → β) (as : List α) :
    gather? f (as.map g) = gather? (f ∘ g) as := by
  induction as with
  | nil => rfl
  | cons a as ih => simp [gather?_cons, ih]

theorem gather?_filter (f : α → Option (List β)) (p : α → Bool) (as : List α) :
    gather? f (as.filter p) = gather? (fun a => if p a then f a else some []) as := by
  induction as with
  | nil => rfl
  | cons a as ih =>
    cases h : p a
    · simp [gather?_cons, h, ih]
    · simp [gather?_cons, h, ih]

theorem map_gather? (f : α → Option (List β)) (g : β → γ) (as : List α) :
    (gather? f as).map (List.map g) = gather? (fun a => (f a).map (List.map g)) as := by
  induction as with
  | nil => rfl
  | cons a as ih =>
    simp only [gather?_cons, ← ih]
    cases f a <;> cases gather? f as <;> simp

theorem gather?_eq_some_cons_iff {f : α → Option (List β)} {a : α} {as : List α} {found : List β} :
    gather? f (a :: as) = some found ↔
      ∃ front back, f a = some front ∧ gather? f as = some back ∧ front ++ back = found := by
  simp only [gather?_cons, Option.bind_eq_some_iff, Option.map_eq_some_iff]
  constructor
  · rintro ⟨front, hf, back, hb, rfl⟩
    exact ⟨front, back, hf, hb, rfl⟩
  · rintro ⟨front, back, hf, hb, rfl⟩
    exact ⟨front, hf, back, hb, rfl⟩

theorem mem_of_gather?_eq_some {f : α → Option (List β)} {as : List α} {found : List β}
    (h : gather? f as = some found) {b : β} (hb : b ∈ found) :
    ∃ a ∈ as, ∃ front, f a = some front ∧ b ∈ front := by
  induction as generalizing found with
  | nil =>
    cases h
    nomatch hb
  | cons a as ih =>
    obtain ⟨front, back, hf, hg, rfl⟩ := gather?_eq_some_cons_iff.mp h
    obtain hb | hb := List.mem_append.mp hb
    · exact ⟨a, List.mem_cons_self .., front, hf, hb⟩
    · obtain ⟨a', ha, rest⟩ := ih hg hb
      exact ⟨a', List.mem_cons_of_mem a ha, rest⟩

/-- A relation between the results for single elements, closed under concatenation, holds between
the results of two rounds. -/
theorem gather?_related {r : List β → List γ → Prop} (nil : r [] [])
    (append : ∀ {front back front' back'}, r front front' → r back back' →
      r (front ++ back) (front' ++ back'))
    {f : α → Option (List β)} {g : α → Option (List γ)} {as : List α} {found : List β}
    (hr : ∀ a ∈ as, ∀ front, f a = some front → ∃ front', g a = some front' ∧ r front front')
    (h : gather? f as = some found) : ∃ found', gather? g as = some found' ∧ r found found' := by
  induction as generalizing found with
  | nil =>
    cases h
    exact ⟨[], rfl, nil⟩
  | cons a as ih =>
    obtain ⟨front, back, hf, hb, rfl⟩ := gather?_eq_some_cons_iff.mp h
    obtain ⟨front', hf', hr'⟩ := hr a (List.mem_cons_self ..) front hf
    obtain ⟨back', hb', hrs⟩ := ih (fun a ha => hr a (List.mem_cons_of_mem _ ha)) hb
    refine ⟨front' ++ back', ?_, append hr' hrs⟩
    exact gather?_eq_some_cons_iff.mpr ⟨front', back', hf', hb', rfl⟩

theorem toOption_mapM_flatten {ε : Type} (f : α → Except ε (List β)) (as : List α) :
    ((as.mapM f).map List.flatten).toOption = gather? (fun a => (f a).toOption) as := by
  induction as with
  | nil => rfl
  | cons a as ih =>
    rw [List.mapM_cons, gather?_cons, ← ih]
    cases f a with
    | error e => rfl
    | ok front => cases as.mapM f <;> rfl

end Gather

namespace Place

/-- A place seen from a place further up, whose location is put in front. -/
def under (front : Location) (place : Place) : Place :=
  ⟨front ++ place.location, place.value⟩

@[simp] theorem under_value (front : Location) (place : Place) :
    (place.under front).value = place.value := rfl

@[simp] theorem under_location (front : Location) (place : Place) :
    (place.under front).location = front ++ place.location := rfl

theorem under_extend (front : Location) (place : Place) (step : Step) (value : Option Json) :
    (place.extend step value).under front = (place.under front).extend step value := by
  simp [under, extend]

theorem planned_under (access : Access) (front : Location) (place : Place) (step : Step) :
    (place.under front).planned access step = (place.planned access step).map (under front) := by
  cases access <;> simp [planned, under_extend]

theorem plannedPast_under (access : Access) (front : Location) (place : Place)
    (position length : Nat) :
    ((place.under front).plannedPast access position length).toOption =
      (place.plannedPast access position length).toOption.map (List.map (under front)) := by
  cases access with
  | read => rfl
  | write =>
    simp only [plannedPast]
    split <;> simp [Except.toOption, under_extend]

theorem refuse_map (access : Access) (fault fault' : TargetFault) (f : Place → Place) :
    (access.refuse fault).toOption = (access.refuse fault').toOption.map (List.map f) := by
  cases access <;> rfl

theorem follow_null (access : Access) (location : Location) (segment : Segment) :
    follow access ⟨location, some .null⟩ segment = follow access ⟨location, none⟩ segment := by
  cases segment <;> rfl

theorem follow_under (access : Access) (front : Location) (place : Place) (segment : Segment) :
    ((place.under front).follow access segment).toOption =
      (place.follow access segment).toOption.map (List.map (under front)) := by
  obtain ⟨location, value⟩ := place
  cases segment with
  | field name =>
    rcases value with _ | value
    · exact congrArg some (planned_under ..)
    cases value with
    | null => exact congrArg some (planned_under ..)
    | object members =>
      simp only [follow, under_value]
      split
      · simp [Except.toOption, under_extend]
      · exact congrArg some (planned_under ..)
    | _ => exact refuse_map ..
  | index position =>
    rcases value with _ | value
    · exact plannedPast_under ..
    cases value with
    | null => exact plannedPast_under ..
    | list items =>
      simp only [follow, under_value]
      split
      · simp [Except.toOption, under_extend]
      · exact plannedPast_under ..
    | _ => exact refuse_map ..
  | append =>
    rcases value with _ | value
    · exact congrArg some (planned_under ..)
    cases value with
    | null => exact congrArg some (planned_under ..)
    | list items =>
      cases access with
      | read => simp [follow, Except.toOption, List.mapIdx_eq_zipIdx_map, under_extend]
      | write => simp [follow, Except.toOption, under_extend]
    | _ => exact refuse_map ..
  | filter constraints =>
    rcases value with _ | value
    · rfl
    cases value with
    | list items => simp [follow, Except.toOption, under_extend]
    | _ => rfl

end Place

namespace Path

theorem locations_eq_ok_iff {path : Path} {access : Access} {document : Json}
    {locations : List Location} : path.locations access document = .ok locations ↔
      ∃ places, path.places access document = .ok places ∧
        places.map Place.location = locations := by
  rw [Path.locations]
  cases path.places access document with
  | error fault =>
    constructor
    · intro h
      cases h
    · rintro ⟨_, h, -⟩
      cases h
  | ok places =>
    constructor
    · intro h
      exact ⟨places, rfl, Except.ok.inj h⟩
    · rintro ⟨_, h, rfl⟩
      cases h
      rfl

theorem locations_eq_error_iff {path : Path} {access : Access} {document : Json}
    {error : PathError} :
    path.locations access document = .error error ↔
      ∃ fault, path.places access document = .error fault ∧ error = .untargetable path fault := by
  rw [Path.locations]
  cases path.places access document with
  | error fault =>
    constructor
    · intro h
      exact ⟨fault, rfl, (Except.error.inj h).symm⟩
    · rintro ⟨_, h, rfl⟩
      cases h
      rfl
  | ok places =>
    constructor
    · intro h
      cases h
    · rintro ⟨_, h, -⟩
      cases h

variable (access : Access)

/-- The places of a path below a place, where each branch is followed to its end before the next
one; `none` when a branch fails. -/
def reach? : Path → Place → Option (List Place)
  | [], place => some [place]
  | segment :: rest, place =>
    (place.follow access segment).toOption.bind (gather? (reach? rest))

theorem reach?_cons (segment : Segment) (rest : Path) :
    reach? access (segment :: rest) =
      fun place => (place.follow access segment).toOption.bind (gather? (reach? access rest)) :=
  funext fun _ => rfl

theorem reach?_cons_eq_some_iff {access : Access} {segment : Segment} {rest : Path} {place : Place}
    {places : List Place} : reach? access (segment :: rest) place = some places ↔
      ∃ next, place.follow access segment = .ok next ∧
        gather? (reach? access rest) next = some places := by
  rw [reach?]
  cases place.follow access segment with
  | error fault => simp [Except.toOption]
  | ok next => simp [Except.toOption]

theorem toOption_foldlM_advance (path : Path) (places : List Place) :
    (path.foldlM (fun places (segment : Segment) => segment.advance access places)
      places).toOption = gather? (path.reach? access) places := by
  induction path generalizing places with
  | nil => exact (gather?_some places).symm
  | cons segment rest ih =>
    rw [reach?_cons, ← gather?_bind, ← toOption_mapM_flatten, List.foldlM_cons]
    change (segment.advance access places >>= _).toOption =
      (segment.advance access places).toOption.bind _
    cases segment.advance access places with
    | error fault => rfl
    | ok next => exact ih next

/-- All branches at once lead to the same places as one branch after the other. -/
theorem toOption_places (path : Path) (document : Json) :
    (path.places access document).toOption = path.reach? access (Place.root document) := by
  rw [places, toOption_foldlM_advance, gather?_singleton]

theorem places_eq_ok_iff {access : Access} {path : Path} {document : Json} {places : List Place} :
    path.places access document = .ok places ↔
      path.reach? access (Place.root document) = some places := by
  rw [← toOption_places]
  cases path.places access document with
  | error fault => simp [Except.toOption]
  | ok places => simp [Except.toOption]

theorem reach?_under (path : Path) (front : Location) (place : Place) :
    path.reach? access (place.under front) =
      (path.reach? access place).map (List.map (Place.under front)) := by
  induction path generalizing place with
  | nil => rfl
  | cons segment rest ih =>
    simp only [reach?, Place.follow_under]
    cases (place.follow access segment).toOption with
    | none => rfl
    | some next => simp [gather?_map, map_gather?, Function.comp_def, ih]

/-- What lies below a place depends on its value; its location is put in front. -/
theorem reach?_eq_map_under (path : Path) (place : Place) :
    path.reach? access place =
      (path.reach? access ⟨[], place.value⟩).map (List.map (Place.under place.location)) := by
  rw [← reach?_under]
  simp [Place.under]

end Path

end DocPath
