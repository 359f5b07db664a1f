import DocPath.Proofs.Places.Apart
import DocPath.Proofs.Write.Single

/-! # Independent assignments

Assignments at locations that are apart do not see each other: each keeps the way to the others
open, and any two may change places. So a value may be put at such locations in any order, also by
writes through their texts, one location at a time.
-/

namespace DocPath

namespace Location

variable {location other : Location} {document : Json}

theorem assign_item (value : Json) {items : List Json} {position : Nat} (rest : Location)
    (h : position < items.length) :
    (assign value (.index position :: rest) (.list items)).document =
      .list (items.set position (assign value rest items[position]).document) := by
  rw [assign_cons value (slot?_index rfl (.inl h)), Slot.fill]
  simp [padTo_of_lt h, List.getElem?_eq_getElem h]

namespace Apart

theorem opens_assign (h : Apart location other document)
    (hl : Opens .write location (some document)) (ho : Opens .write other (some document))
    (value : Json) : Opens .write other (some (location.assign value document).document) := by
  induction h with
  | here hn hi hj =>
    obtain ⟨-, hr⟩ := opens_write_cons.mp ho
    rw [assign_item value _ hi]
    refine opens_write_cons.mpr ⟨⟨_, rfl, .inl (by simpa using hj)⟩, ?_⟩
    change Opens .write _ (some ((List.set ..)[_]?.getD .null))
    rwa [List.getElem?_set_ne hn]
  | deeper hc _ ih =>
    obtain ⟨slot, hs, hr, he, ha⟩ := hl.cons_assign value
    obtain ⟨-, hr'⟩ := opens_write_cons.mp ho
    rw [hc, Option.getD_some] at he hr'
    rw [he] at hr ha
    rw [ha]
    refine opens_write_cons.mpr ⟨admits_around hs _, ?_⟩
    rw [Slot.fill, child?_around hs]
    exact ih hr hr'

theorem assign_comm (h : Apart location other document)
    (hl : Opens .write location (some document)) (ho : Opens .write other (some document))
    (value value' : Json) :
    (other.assign value' (location.assign value document).document).document =
      (location.assign value (other.assign value' document).document).document := by
  induction h with
  | here hn hi hj =>
    rw [assign_item value _ hi, assign_item value' _ hj, assign_item value' _ (by simpa using hj),
      assign_item value _ (by simpa using hi), List.getElem_set_ne hn, List.getElem_set_ne hn.symm,
      List.set_comm _ _ hn]
  | deeper hc _ ih =>
    obtain ⟨slot, hs, hr, he, ha⟩ := hl.cons_assign value
    obtain ⟨-, hr'⟩ := opens_write_cons.mp ho
    rw [hc, Option.getD_some] at he hr'
    rw [he] at hr
    rw [ha, assign_cons value' hs, Slot.fill, Slot.fill, assign_cons value' (slot?_around hs _),
      assign_cons value (slot?_around hs _), he]
    exact congrArg slot.around (ih hr hr')

theorem apart_assign {third : Location} (h : Apart location other document)
    (ht : Opens .write third (some document)) (hl : Apart third location document)
    (ho : Apart third other document) (value : Json) :
    Apart location other (third.assign value document).document := by
  -- the third location goes its own way at the same list or earlier, or along with both
  induction h generalizing third with
  | here hn hi hj =>
    cases hl with
    | here _ hk _ =>
      rw [assign_item value _ hk]
      exact .here hn (by simpa using hi) (by simpa using hj)
    | deeper =>
      rw [assign_item value _ hi]
      exact .here hn (by simpa using hi) (by simpa using hj)
  | deeper hc h ih =>
    cases hl with
    | here hn hk _ =>
      rw [assign_item value _ hk]
      refine .deeper ?_ h
      exact (List.getElem?_set_ne hn).trans hc
    | deeper hc' hl =>
      cases ho with
      | here hn => exact absurd rfl hn
      | deeper hc'' ho =>
        obtain ⟨slot, hs, hr, he, ha⟩ := ht.cons_assign value
        rw [hc, Option.some.injEq] at hc' hc''
        subst hc' hc''
        rw [hc, Option.getD_some] at he
        rw [he] at hr ha
        rw [ha]
        exact .deeper (child?_around hs _) (ih hr hl ho)

end Apart

/-- Locations to which the way is open and that are apart from each other. -/
structure Independent (locations : List Location) (document : Json) : Prop where
  opens : ∀ location ∈ locations, Opens .write location (some document)
  apart : locations.Pairwise fun location other => location.Apart other document

namespace Independent

variable {locations order : List Location}

theorem perm (h : Independent locations document) (hp : locations.Perm order) :
    Independent order document :=
  ⟨fun location hm => h.opens location (hp.mem_iff.mpr hm),
    (hp.pairwise_iff fun ha => ha.symm).mp h.apart⟩

theorem tail {location : Location} {rest : List Location}
    (h : Independent (location :: rest) document) (value : Json) :
    Independent rest (location.assign value document).document := by
  obtain ⟨ho, ha⟩ := h
  obtain ⟨hl, ho⟩ := List.forall_mem_cons.mp ho
  obtain ⟨hr, ha⟩ := List.pairwise_cons.mp ha
  constructor
  · exact fun other hm => (hr other hm).opens_assign hl (ho other hm) value
  · exact ha.imp_of_mem fun hm hm' h => h.apart_assign hl (hr _ hm) (hr _ hm') value

theorem assignAll_cons {location : Location} {rest : List Location}
    (h : Independent (location :: rest) document) (value : Json) :
    assignAll value (location :: rest) document =
      assignAll value rest (location.assign value document).document := by
  rw [Location.assignAll_cons, (h.opens location (List.mem_cons_self ..)).assign_eq value]
  rfl

theorem assignAll_perm (h : Independent locations document) (hp : locations.Perm order)
    (value : Json) : assignAll value locations document = assignAll value order document := by
  induction hp generalizing document with
  | nil => rfl
  | cons location hp ih =>
    rw [h.assignAll_cons, (h.perm (hp.cons location)).assignAll_cons]
    exact ih (h.tail value)
  | swap location other rest =>
    have hs := h.perm (List.Perm.swap location other rest)
    obtain ⟨ha, -⟩ := List.pairwise_cons.mp h.apart
    rw [h.assignAll_cons, (h.tail value).assignAll_cons, hs.assignAll_cons,
      (hs.tail value).assignAll_cons, (ha location (List.mem_cons_self ..)).assign_comm
        (h.opens other (List.mem_cons_self ..)) (hs.opens location (List.mem_cons_self ..))]
  | trans hp _ ih ih' => exact (ih h).trans (ih' (h.perm hp))

theorem exists_first (h : Independent locations document) (hm : location ∈ locations)
    (value : Json) : ∃ rest, locations.Perm (location :: rest) ∧
      (∀ other ∈ rest, Apart location other document) ∧
      Independent rest (location.assign value document).document ∧
      assignAll value locations document =
        assignAll value rest (location.assign value document).document := by
  have hp := List.perm_cons_erase hm
  have hf := h.perm hp
  exact ⟨_, hp, (List.pairwise_cons.mp hf.apart).1, hf.tail value,
    (h.assignAll_perm hp value).trans (hf.assignAll_cons value)⟩

theorem eq_or_apart (h : Independent locations document) (hm : location ∈ locations)
    (hm' : other ∈ locations) : other = location ∨ Apart location other document := by
  obtain ⟨rest, hp, ha, -⟩ := h.exists_first hm .null
  exact (List.mem_cons.mp (hp.mem_iff.mp hm')).imp_right (ha other)

theorem not_prefix_of_mem (h : Independent locations document) {front back : Location} {step : Step}
    (hm : front ++ step :: back ∈ locations) (hm' : other ∈ locations) : ¬ other <+: front := by
  intro hp
  rcases h.eq_or_apart hm hm' with rfl | ha
  · have := hp.length_le
    rw [List.length_append, List.length_cons] at this
    omega
  · exact ha.symm.not_prefix (hp.trans (List.prefix_append _ _))

theorem get?_assignAll_of_not_prefix (h : Independent locations document) (value : Json)
    {found : Json} (hb : ∀ written ∈ locations, ¬ written <+: location)
    (ha : ∀ written ∈ locations, ¬ location <+: written)
    (hf : location.get? document = some found) :
    location.get? (assignAll value locations document).document = some found := by
  induction locations generalizing document with
  | nil => exact hf
  | cons written rest ih =>
    obtain ⟨hbw, hb⟩ := List.forall_mem_cons.mp hb
    obtain ⟨haw, ha⟩ := List.forall_mem_cons.mp ha
    rw [h.assignAll_cons]
    have ho := h.opens written (List.mem_cons_self ..)
    exact ih (h.tail value) hb ha (ho.get?_assign_of_not_prefix value hbw haw hf)

/-- Writes through the texts of independent locations do the assignments there. -/
theorem writesInTurn (h : Independent locations document)
    (hw : ∀ location ∈ locations, location.path.WellFormed) (hd : document.kind ≠ .null)
    (value : Json) :
    Json.WritesInTurn (locations.map fun location => (location.render, value)) document
      (assignAll value locations document).document := by
  induction locations generalizing document with
  | nil => exact .nil document
  | cons location rest ih =>
    obtain ⟨hl, hw⟩ := List.forall_mem_cons.mp hw
    have ho := h.opens location (List.mem_cons_self ..)
    rw [h.assignAll_cons]
    exact .cons (ho.write_render hl hd value)
      (ih (h.tail value) hw (ho.kind_assign_ne_null (Location.path_wellFormed_iff.mp hl).1 value))

end Independent

end Location

end DocPath
