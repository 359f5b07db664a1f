import DocPath.Proofs.FanOut
import DocPath.Proofs.Places.Checked
import DocPath.Proofs.Write.Concrete
import DocPath.Proofs.Write.Refusal
import DocPath.Proofs.Write.Survival

/-! # Lists that grow

A list grows by a write only at a location past its end, and then no other location of the write
goes through that list: two locations of one path part at elements that exist. So a list gets the
nulls of one step and one more element, however many locations and positions there are.
-/

namespace DocPath

open Location

namespace Location

variable {front back location other : Location} {document : Json}

theorem Opens.of_append (h : Opens .write (front ++ back) (some document)) :
    Opens .write back (some (front.valueOrNull document)) :=
  (opens_write_getD back (front.get? document)).mpr (opens_append.mp h).2

theorem Opens.get?_assign_append (h : Opens .write (front ++ back) (some document))
    (value : Json) : front.get? (assign value (front ++ back) document).document =
      some (assign value back (front.valueOrNull document)).document := by
  induction front generalizing document with
  | nil => rfl
  | cons step rest ih =>
    rw [List.cons_append] at h ⊢
    obtain ⟨slot, hs, hr, hc, ha⟩ := h.cons_assign value
    rw [ha, get?_cons, Slot.fill, child?_around hs, Option.bind_some, ih hr, valueOrNull_cons, hc]

theorem Opens.length_assign {items : List Json} (h : Opens .write location (some document))
    (value : Json) (hn : ¬ location <+: front)
    (hi : ∀ step rest, location = front ++ step :: rest →
      ∃ position < items.length, step = .index position)
    (hl : front.get? document = some (.list items)) :
    ∃ others, front.get? (location.assign value document).document = some (.list others) ∧
      others.length = items.length := by
  by_cases hf : front <+: location
  · obtain ⟨back, rfl⟩ := hf
    cases back with
    | nil => exact absurd (by simp) hn
    | cons step rest =>
      obtain ⟨position, hp, rfl⟩ := hi step rest rfl
      rw [h.get?_assign_append, valueOrNull, hl, Option.getD_some, assign_item value rest hp]
      exact ⟨_, rfl, List.length_set⟩
  · exact ⟨items, h.get?_assign_of_not_prefix value hn hf hl, rfl⟩

theorem Apart.not_prefix_of_missing {step : Step}
    (h : Apart (front ++ step :: back) other document)
    (hs : (front.valueOrNull document).child? step = none) : ¬ front <+: other := by
  rintro ⟨back', rfl⟩
  obtain ⟨value, hg, hb⟩ := h.of_append
  obtain ⟨_, _, child, he, hc⟩ := hb.exists_child
  obtain ⟨rfl, -⟩ := List.cons.inj he
  rw [valueOrNull, hg, Option.getD_some, hc] at hs
  cases hs

theorem Independent.length_assignAll {locations : List Location} {items : List Json}
    (h : Independent locations document) (value : Json)
    (hn : ∀ written ∈ locations, ¬ written <+: front)
    (hi : ∀ written ∈ locations, ∀ step rest, written = front ++ step :: rest →
      ∃ position < items.length, step = .index position)
    (hl : front.get? document = some (.list items)) :
    ∃ others, front.get? (assignAll value locations document).document = some (.list others) ∧
      others.length = items.length := by
  induction locations generalizing document items with
  | nil => exact ⟨items, hl, rfl⟩
  | cons written rest ih =>
    obtain ⟨hnw, hn⟩ := List.forall_mem_cons.mp hn
    obtain ⟨hiw, hi⟩ := List.forall_mem_cons.mp hi
    have ho := h.opens written (List.mem_cons_self ..)
    obtain ⟨next, hg, he⟩ := ho.length_assign value hnw hiw hl
    rw [h.assignAll_cons]
    rw [← he] at hi ⊢
    exact ih (h.tail value) hn hi hg

end Location

/-- What becomes of the elements of a list, on the way to some of the written locations. Either all
of these go through its elements, and the other elements stay; or all go through one new element,
and all elements stay, with nulls between them and the new one. -/
inductive ListGrowth (written : List Location) (location : Location) (items : List Json) :
    List Json → Prop where
  | kept {others : List Json} : others.length = items.length →
      (∀ position, (∀ target ∈ written, ¬ location ++ [.index position] <+: target) →
        others[position]? = items[position]?) →
      ListGrowth written location items others
  | grown {padding : Nat} (last : Json) : padding ≤ maxPadding →
      (∀ target ∈ written, location <+: target →
        location ++ [.index (items.length + padding)] <+: target) →
      ListGrowth written location items (items ++ List.replicate padding .null ++ [last])

theorem ListGrowth.length_le {written : List Location} {location : Location}
    {items others : List Json} (h : ListGrowth written location items others) :
    others.length ≤ items.length + (maxPadding + 1) := by
  cases h with
  | kept hl => omega
  | grown last hp =>
    simp only [List.length_append, List.length_replicate, List.length_singleton]
    omega

namespace Location.Independent

variable {locations : List Location} {location rest : Location} {document : Json}
  {position : Nat} {items : List Json}

theorem exists_position (h : Independent locations document) {step : Step} {back : Location}
    (hm : location ++ .index position :: rest ∈ locations)
    (hg : location.get? document = some (.list items)) (hp : position < items.length)
    (hw : location ++ step :: back ∈ locations) : ∃ other < items.length, step = .index other := by
  rcases h.eq_or_apart hm hw with he | ha
  · obtain ⟨rfl, -⟩ := List.cons.inj (List.append_cancel_left he)
    exact ⟨position, hp, rfl⟩
  · obtain ⟨_, hg', ha⟩ := ha.of_append
    obtain rfl := Option.some.inj (hg.symm.trans hg')
    obtain ⟨_, _, child, he, hc⟩ := ha.symm.exists_child
    obtain ⟨rfl, -⟩ := List.cons.inj he
    cases step with
    | key => nomatch hc
    | index other => exact ⟨other, (List.getElem?_eq_some_iff.mp hc).1, rfl⟩

theorem listGrowth_of_lt (h : Independent locations document) (value : Json)
    (hm : location ++ .index position :: rest ∈ locations)
    (hg : location.get? document = some (.list items)) (hp : position < items.length) :
    ∃ others, location.get? (assignAll value locations document).document = some (.list others) ∧
      ListGrowth locations location items others := by
  have hn : ∀ written ∈ locations, ¬ written <+: location :=
    fun written hw => h.not_prefix_of_mem hm hw
  have hi : ∀ written ∈ locations, ∀ step back, written = location ++ step :: back →
      ∃ other < items.length, step = .index other := by
    rintro _ hw step back rfl
    exact h.exists_position hm hg hp hw
  obtain ⟨others, ho, hl⟩ := h.length_assignAll value hn hi hg
  refine ⟨others, ho, .kept hl fun other hother => ?_⟩
  cases hitem : items[other]? with
  | none =>
    rw [List.getElem?_eq_none_iff] at hitem ⊢
    exact hl ▸ hitem
  | some item =>
    have hget : get? (location ++ [.index other]) document = some item := by
      rw [get?_append_singleton, hg]
      exact hitem
    have hres := h.get?_assignAll_of_not_prefix value (fun written hw hpre => ?_) hother hget
    · rw [get?_append_singleton, ho] at hres
      exact hres
    · rcases List.prefix_concat_iff.mp hpre with rfl | hpre
      · exact hother _ hw (List.prefix_refl _)
      · exact hn written hw hpre

/-- A list with a location past its end: no other location goes through the list. -/
theorem listGrowth_of_ge (h : Independent locations document) (value : Json)
    (hm : location ++ .index position :: rest ∈ locations)
    (hi : (location.valueOrNull document).orEmptyList = .list items)
    (hp : items.length ≤ position) :
    ∃ others, location.get? (assignAll value locations document).document = some (.list others) ∧
      ListGrowth locations location items others := by
  obtain ⟨others, hperm, ha, hr, he⟩ := h.exists_first hm value
  have ho := h.opens _ hm
  obtain ⟨⟨_, hi', hadmits⟩, -⟩ := opens_write_cons.mp ho.of_append
  obtain rfl := Json.list.inj (hi.symm.trans hi')
  have hallowed : paddingAllowed position items.length = true :=
    hadmits.resolve_left hp.not_gt
  have hpadding : position - items.length ≤ maxPadding := by
    simp only [paddingAllowed, Bool.and_eq_true, decide_eq_true_eq] at hallowed
    omega
  have hmissing : (location.valueOrNull document).child? (.index position) = none := by
    rw [child?_index_of_orEmptyList position hi, List.getElem?_eq_none hp]
  have hout : ∀ other ∈ others, ¬ location <+: other :=
    fun other hother => (ha other hother).not_prefix_of_missing hmissing
  have hfirst := ho.get?_assign_append value
  rw [assign_cons value (slot?_index hi (.inr (lt_positionLimit_of_paddingAllowed hallowed))),
    Slot.fill] at hfirst
  simp only [set_padTo hp] at hfirst
  have hstays := hr.get?_assignAll_of_not_prefix value (fun other hother => h.not_prefix_of_mem hm
    (hperm.mem_iff.mpr (List.mem_cons_of_mem _ hother))) hout hfirst
  rw [← he] at hstays
  refine ⟨_, hstays, .grown _ hpadding fun target ht hpre => ?_⟩
  rcases List.mem_cons.mp (hperm.mem_iff.mp ht) with rfl | hother
  · rw [Nat.add_sub_cancel' hp, List.prefix_append_right_inj]
    exact List.prefix_append [_] rest
  · exact absurd hpre (hout target hother)

theorem listGrowth (h : Independent locations document) (value : Json)
    (hm : location ++ .index position :: rest ∈ locations)
    (hi : (location.valueOrNull document).orEmptyList = .list items) :
    ∃ others, location.get? (assignAll value locations document).document = some (.list others) ∧
      ListGrowth locations location items others := by
  rcases Nat.lt_or_ge position items.length with hlt | hge
  · obtain ⟨-, rfl⟩ | hv := orEmptyList_eq hi
    · nomatch hlt
    · exact h.listGrowth_of_lt value hm (get?_of_valueOrNull_list hv) hlt
  · exact h.listGrowth_of_ge value hm hi hge

theorem not_list_of_key (h : Independent locations document) (value : Json) {name : String}
    (hm : location ++ .key name :: rest ∈ locations) (items : List Json) :
    location.get? document ≠ some (.list items) ∧
      location.get? (assignAll value locations document).document ≠ some (.list items) := by
  have ho := h.opens _ hm
  obtain ⟨⟨members, hmembers⟩, -⟩ := opens_write_cons.mp ho.of_append
  constructor
  · intro hg
    rw [valueOrNull, hg] at hmembers
    cases hmembers
  · intro hg
    obtain ⟨others, hperm, -, hr, he⟩ := h.exists_first hm value
    have hfirst := ho.get?_assign_append value
    rw [assign_cons value (slot?_key name hmembers), Slot.fill] at hfirst
    obtain ⟨_, hres, hgrow⟩ := growsTo_assignAll value (fun other hother => h.not_prefix_of_mem hm
      (hperm.mem_iff.mpr (List.mem_cons_of_mem _ hother))) hfirst (by simp [Json.kind])
    rw [← he, hg, Option.some.injEq] at hres
    subst hres
    cases hgrow.kind_eq

end Location.Independent

section Memory

variable {document : Json} (hm : document.FitsMemory)
include hm

theorem Json.FitsMemory.length_lt {location : Location} {items : List Json}
    (hi : (location.valueOrNull document).orEmptyList = .list items) :
    2 * items.length < positionLimit := by
  obtain ⟨-, rfl⟩ | hv := orEmptyList_eq hi
  · decide
  · exact (hm.get? (get?_of_valueOrNull_list hv)).here items rfl

theorem Location.Opens.lt_positionLimit {location : Location} {position : Nat}
    (h : Opens .write location (some document)) (hp : .index position ∈ location) :
    position + 1 < positionLimit := by
  obtain ⟨front, back, rfl⟩ := List.append_of_mem hp
  obtain ⟨⟨items, hi, hlt | ha⟩, -⟩ := opens_write_cons.mp h.of_append
  · have := hm.length_lt hi
    simp only [positionLimit, UInt64.size] at this ⊢
    omega
  · exact lt_positionLimit_of_paddingAllowed ha

namespace Path

/-- A position can be written exactly in a list that has it, or would after few enough nulls. -/
theorem exists_locations_index_iff {front : Path} {heads : List Location}
    (hh : front.locations .write document = .ok heads) (position : Nat) :
    (∃ locations, Path.locations .write (front ++ [.index position]) document = .ok locations) ↔
      ∀ head ∈ heads, ∃ items, (head.valueOrNull document).orEmptyList = .list items ∧
        (position < items.length ∨ position - items.length ≤ maxPadding) := by
  have hone (value : Json) : (∃ locations, Path.locations .write [.index position] value =
      .ok locations) ↔ value.Admits (.index position) := by
    constructor
    · rintro ⟨_, hl⟩
      obtain ⟨places, hp, -⟩ := locations_eq_ok_iff.mp hl
      have ho : Opens .write [.index position] (some value) := opens_of_places_path hp
      exact (opens_write_cons.mp ho).1
    · intro ha
      have ho : Opens .write [.index position] (some value) := opens_write_cons.mpr ⟨ha, trivial⟩
      exact ⟨_, locations_path ho⟩
  have hadmits (head : Location) : (head.valueOrNull document).Admits (.index position) ↔
      ∃ items, (head.valueOrNull document).orEmptyList = .list items ∧
        (position < items.length ∨ position - items.length ≤ maxPadding) := by
    refine exists_congr fun items => and_congr_right fun hi => or_congr_right ?_
    exact paddingAllowed_iff (hm.length_lt hi)
  simp only [exists_locations_append_iff, hh, Except.ok.injEq, exists_eq_left', hone, hadmits]

theorem outcome_ne_positionOutOfRange (path : Path) (value : Json) (position : Nat) :
    (path.write value document).outcome ≠
      .error (.untargetable path (.positionOutOfRange position)) := by
  intro ho
  obtain ⟨argument, he⟩ | he | hl := write_error_cases hm ho
  · nomatch he
  · nomatch he
  · obtain ⟨fault, hf, he⟩ := locations_eq_error_iff.mp hl
    obtain ⟨k, before, location, after, -, ⟨segment, heads, -, -, -, hr⟩, -⟩ :=
      exists_blocked hm hf
    cases he
    nomatch hr

end Path

end Memory

/-- A write that succeeds lets each list on the way to its locations grow as lists do, whether the
list was there before or is there after. -/
theorem Path.exists_listGrowth {path : Path} {document value result : Json} {n : Nat}
    (ha : document.Addressable) (h : path.write value document = ⟨result, .ok n⟩) :
    ∃ locations, path.locations .write document = .ok locations ∧
      ∀ target ∈ locations, ∀ location : Location, location <+: target → location ≠ target →
        ((∃ items, location.get? document = some (.list items)) ∨
          ∃ others, location.get? result = some (.list others)) →
        ∃ items others, (location.valueOrNull document).orEmptyList = .list items ∧
          location.get? result = some (.list others) ∧
          ListGrowth locations location items others := by
  obtain ⟨-, locations, hl, -, has⟩ := write_eq_ok ha h
  have hi := independent_locations ha hl
  have hr : (assignAll value locations document).document = result := by rw [has]
  refine ⟨locations, hl, ?_⟩
  rintro _ ht location ⟨back, rfl⟩ hne hlist
  cases back with
  | nil => exact absurd (List.append_nil location).symm hne
  | cons step rest =>
    cases step with
    | key name =>
      obtain ⟨items, hg⟩ | ⟨others, hg⟩ := hlist
      · exact absurd hg (hi.not_list_of_key value ht items).1
      · exact absurd (hr ▸ hg) (hi.not_list_of_key value ht others).2
    | index position =>
      obtain ⟨⟨items, hitems, -⟩, -⟩ := opens_write_cons.mp (hi.opens _ ht).of_append
      obtain ⟨others, ho, hgrowth⟩ := hi.listGrowth value ht hitems
      exact ⟨items, others, hitems, hr ▸ ho, hgrowth⟩

/-- A plan in 64-bit arithmetic never takes more from a number than it is, and is the plan with
exact numbers. After each planned position there is one more, so no position turns out to be out of
range. A position can be planned exactly in a list that has it, or would have it after no more than
`maxPadding` nulls. And in a write that succeeds, each list on the way to a written location, or
null as an empty one, keeps its elements but those on the way to such a location, and gets at most
`maxPadding` nulls with one element behind them on that way. -/
theorem list_growth_bounded {document : Json} (hm : document.FitsMemory) {path : Path}
    (hp : path.FitsWord) :
    path.placesChecked document = (path.places .write document).mapError .fault ∧
    (∀ locations, path.locations .write document = .ok locations → ∀ location ∈ locations,
      ∀ position, .index position ∈ location → position + 1 < positionLimit) ∧
    (∀ value position, (path.write value document).outcome ≠
      .error (.untargetable path (.positionOutOfRange position))) ∧
    (∀ (front : Path) (heads : List Location) (position : Nat),
      front.locations .write document = .ok heads →
        ((∃ locations, Path.locations .write (front ++ [.index position]) document =
          .ok locations) ↔
        ∀ head ∈ heads, ∃ items, (head.valueOrNull document).orEmptyList = .list items ∧
          (position < items.length ∨ position - items.length ≤ maxPadding))) ∧
    ∀ value result n, path.write value document = ⟨result, .ok n⟩ →
      ∃ locations, path.locations .write document = .ok locations ∧
        ∀ target ∈ locations, ∀ location : Location, location <+: target → location ≠ target →
          ((∃ items, location.get? document = some (.list items)) ∨
            ∃ others, location.get? result = some (.list others)) →
          ∃ items others, (location.valueOrNull document).orEmptyList = .list items ∧
            location.get? result = some (.list others) ∧
            ListGrowth locations location items others ∧
            others.length ≤ items.length + (maxPadding + 1) := by
  refine ⟨Path.placesChecked_eq hp document, fun locations hl location hmem position hpos => ?_,
    path.outcome_ne_positionOutOfRange hm, fun front heads position hh =>
      Path.exists_locations_index_iff hm hh position, fun value result n h => ?_⟩
  · obtain ⟨_, hr⟩ := Path.exists_reached_of_mem_locations hm.addressable hl hmem
    exact hr.opens.lt_positionLimit hm hpos
  · obtain ⟨locations, hl, hgrow⟩ := Path.exists_listGrowth hm.addressable h
    refine ⟨locations, hl, fun target ht location hpre hne hlist => ?_⟩
    obtain ⟨items, others, hi, ho, hg⟩ := hgrow target ht location hpre hne hlist
    exact ⟨items, others, hi, ho, hg, hg.length_le⟩

def peopleWithTags : Json :=
  .object [("people", .list [.object [("s", .string "x")], .null,
    .object [("s", .string "x"), ("t", .list [.bool true])]])]

theorem list_growth_bounded_people :
    peopleWithTags.FitsMemory ∧
    Path.FitsWord [.field "people", .filter [⟨"s", "x"⟩], .field "t", .index 2] ∧
    ListGrowth [[.key "people", .index 0, .key "t", .index 2],
        [.key "people", .index 2, .key "t", .index 2]] [.key "people", .index 2, .key "t"]
      [.bool true] [.bool true, .null, .bool false] := by
  have hm : peopleWithTags.FitsMemory := by
    simp [peopleWithTags, Json.FitsMemory, positionLimit, UInt64.size]
  have hp : Path.FitsWord [.field "people", .filter [⟨"s", "x"⟩], .field "t", .index 2] := by
    simp [Path.FitsWord, positionLimit, UInt64.size]
  obtain ⟨-, -, -, -, hg⟩ := list_growth_bounded hm hp
  obtain ⟨locations, hl, hlist⟩ := hg (.bool false) (.object [("people", .list [
    .object [("s", .string "x"), ("t", .list [.null, .null, .bool false])], .null,
    .object [("s", .string "x"), ("t", .list [.bool true, .null, .bool false])]])]) 2 rfl
  have hn : Except.ok [[.key "people", .index 0, .key "t", .index 2],
      [.key "people", .index 2, .key "t", .index 2]] = Except.ok locations := hl
  cases hn
  obtain ⟨items, others, hi, ho, hgrowth, -⟩ := hlist
    [.key "people", .index 2, .key "t", .index 2] (by simp) [.key "people", .index 2, .key "t"]
    (by decide) (by decide) (.inl ⟨_, rfl⟩)
  have hi' : Json.list [.bool true] = .list items := hi
  have ho' : some (Json.list [.bool true, .null, .bool false]) = some (.list others) := ho
  cases hi'
  cases ho'
  exact ⟨hm, hp, hgrowth⟩

end DocPath
