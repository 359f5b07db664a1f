import DocPath.Proofs.Json.Children
import DocPath.Proofs.Sort.Order

/-! # What sorting gives

The sorted form of a document is described here without the sort: the keys of objects ascend, and
a list that the order names is a stable arrangement of its elements that ascends by their sort keys.
Only one document is described so, and sorting gives it.
-/

namespace DocPath

section Stable

variable {α : Type} {key : α → Option String} {as bs : List α}

theorem mem_iff_of_filter_eq
    (h : ∀ k, (as.filter fun a => key a = k) = bs.filter fun b => key b = k) (x : α) :
    x ∈ as ↔ x ∈ bs := by
  have hm : x ∈ as.filter (fun a => key a = key x) ↔ x ∈ bs.filter fun b => key b = key x := by
    rw [h]
  simpa using hm

/-- Two ascending lists are equal when for every key they have the same elements in the same
order. -/
theorem eq_of_filter_eq (ha : as.Pairwise fun a b => sortKeyLE (key a) (key b) = true)
    (hb : bs.Pairwise fun a b => sortKeyLE (key a) (key b) = true)
    (h : ∀ k, (as.filter fun a => key a = k) = bs.filter fun b => key b = k) : as = bs := by
  induction as generalizing bs with
  | nil =>
    refine (List.eq_nil_iff_forall_not_mem.mpr fun x hx => ?_).symm
    exact List.not_mem_nil ((mem_iff_of_filter_eq h x).mpr hx)
  | cons a as ih =>
    have mem_iff := mem_iff_of_filter_eq h
    rcases bs with _ | ⟨b, bs⟩
    · exact absurd ((mem_iff a).mp (List.mem_cons_self ..)) List.not_mem_nil
    obtain ⟨hle, has⟩ := List.pairwise_cons.mp ha
    obtain ⟨hle', hbs⟩ := List.pairwise_cons.mp hb
    -- each of the two first elements is in the other list too, so neither key is the smaller one
    have hk : key a = key b := by
      rcases List.mem_cons.mp ((mem_iff a).mp (List.mem_cons_self ..)) with rfl | hab
      · rfl
      rcases List.mem_cons.mp ((mem_iff b).mpr (List.mem_cons_self ..)) with rfl | hba
      · rfl
      exact sortKeyLE_antisymm (hle b hba) (hle' a hab)
    have hf := h (key b)
    simp only [List.filter_cons, hk, decide_true, if_true] at hf
    obtain ⟨rfl, hf⟩ := List.cons.inj hf
    have ht (k : Option String) :
        (as.filter fun a => key a = k) = bs.filter fun b => key b = k := by
      by_cases hak : key a = k
      · exact hak ▸ hf
      · simpa [List.filter_cons, hak] using h k
    rw [ih has hbs ht]

end Stable

namespace Json

/-- The elements ascend by the text of a field; those without one come before all others. -/
def AscendBy (field : String) (items : List Json) : Prop :=
  items.Pairwise fun a b => ∀ text, a.fieldText? field = some text →
    ∃ text', b.fieldText? field = some text' ∧ text ≤ text'

/-- A value and its sorted form. The path text without positions that the value has in its document
tells which lists are arranged by a field of their elements. -/
inductive SortsTo (order : ListOrder) : String → Json → Json → Prop where
  | scalar {path : String} {value : Json} : value.isScalar = true → SortsTo order path value value
  | object {path : String} {members sorted : Members} :
      sorted.keys.Pairwise (· < ·) → (∀ key, key ∈ sorted.keys ↔ key ∈ members.keys) →
      (∀ key value result, members.get? key = some value → sorted.get? key = some result →
        SortsTo order (memberText path key) value result) →
      SortsTo order path (.object members) (.object sorted)
  /-- A list that the order does not name keeps the places of its elements. -/
  | kept {path : String} {items results : List Json} :
      order.field? (path ++ "[]") = none →
      items.length = results.length →
      (∀ e ∈ items.zip results, SortsTo order (path ++ "[]") e.1 e.2) →
      SortsTo order path (.list items) (.list results)
  /-- Elements with the same text of the field, or none, stay in their order. -/
  | arranged {path field : String} {items arrangement results : List Json} :
      order.field? (path ++ "[]") = some field →
      items.Perm arrangement →
      (∀ text, (arrangement.filter fun item => item.fieldText? field = text) =
        items.filter fun item => item.fieldText? field = text) →
      arrangement.length = results.length →
      (∀ e ∈ arrangement.zip results, SortsTo order (path ++ "[]") e.1 e.2) →
      AscendBy field results →
      SortsTo order path (.list items) (.list results)

theorem ascendBy_iff {field : String} {items : List Json} :
    AscendBy field items ↔ items.Pairwise
      fun a b => sortKeyLE (a.fieldText? field) (b.fieldText? field) = true := by
  simp only [AscendBy, sortKeyLE_iff]

theorem filter_sortByField (field : String) (items : List Json) (text : Option String) :
    ((sortByField field items).filter fun item => item.fieldText? field = text) =
      items.filter fun item => item.fieldText? field = text := by
  refine filter_mergeSort
    (fun a b c => sortKeyLE_trans (a.fieldText? field) (b.fieldText? field) (c.fieldText? field))
    (fun a b => sortKeyLE_total (a.fieldText? field) (b.fieldText? field)) ?_
  refine List.pairwise_of_forall_mem_list fun a ha b hb => ?_
  have hat : a.fieldText? field = text := by simpa using (List.mem_filter.mp ha).2
  have hbt : b.fieldText? field = text := by simpa using (List.mem_filter.mp hb).2
  rw [hat, hbt]
  exact sortKeyLE_refl text

theorem eq_sortByField {field : String} {items arrangement : List Json}
    (ha : AscendBy field arrangement)
    (h : ∀ text, (arrangement.filter fun item => item.fieldText? field = text) =
      items.filter fun item => item.fieldText? field = text) :
    arrangement = sortByField field items := by
  refine eq_of_filter_eq (ascendBy_iff.mp ha) (pairwise_sortByField field items) fun text => ?_
  rw [h, filter_sortByField]

theorem field?_of_kind_ne {name : String} {value : Json} (h : value.kind ≠ .object) :
    value.field? name = none := by
  have hm (key : String) : value.member? key = none := by
    cases value with
    | object => exact absurd rfl h
    | _ => rfl
  rw [field?, hm]
  cases hp : dottedParts name with
  | nil => exact absurd (List.map_eq_nil_iff.mp hp) (Text.splitAt_ne_nil '.' _)
  | cons key keys =>
    have hd : value.descend? (key :: keys) = (value.member? key).bind (·.descend? keys) := rfl
    rw [hd, hm]
    exact ite_self none

theorem fieldText?_eq_none_iff {name : String} {value : Json} :
    value.fieldText? name = none ↔ value.kind ≠ .object ∨ value.field? name = none ∨
      ∃ found, value.field? name = some found ∧ found.isScalar = false := by
  have hs (found : Json) : found.scalarText? = none ↔ found.isScalar = false := by
    rw [← scalarText?_isSome, Option.isSome_eq_false_iff, Option.isNone_iff_eq_none]
  rw [fieldText?]
  constructor
  · intro h
    cases hf : value.field? name with
    | none => exact .inr (.inl rfl)
    | some found =>
      rw [hf] at h
      exact .inr (.inr ⟨found, rfl, (hs found).mp h⟩)
  · rintro (hk | hf | ⟨found, hf, hc⟩)
    · rw [field?_of_kind_ne hk, Option.bind_none]
    · rw [hf, Option.bind_none]
    · rw [hf]
      exact (hs found).mpr hc

variable {order : ListOrder}

theorem sortsTo_sortAt (path : String) {value : Json} (hw : value.WellFormed) :
    SortsTo order path value (value.sortAt order path) := by
  induction value generalizing path with
  | list items ih =>
    have hi (between : List Json) (hm : ∀ item ∈ between, item ∈ items) :
        ∀ e ∈ between.zip (between.map (sortAt order (path ++ "[]"))),
          SortsTo order (path ++ "[]") e.1 e.2 := by
      intro e he
      obtain ⟨item, hitem, rfl⟩ := exists_of_mem_zip_map he
      exact ih item (hm item hitem) _ (WellFormed.list_iff.mp hw item (hm item hitem))
    rw [sortAt_list]
    cases hf : order.field? (path ++ "[]") with
    | none => exact .kept hf (List.length_map _).symm (hi items fun _ h => h)
    | some field =>
      have hk (item : Json) := fieldText?_sortAt order (path ++ "[]") field item
      change SortsTo order path _ (.list (sortByField field _))
      rw [← map_sortByField hk]
      refine .arranged hf (List.mergeSort_perm ..).symm (filter_sortByField field items)
        (List.length_map _).symm (hi _ fun _ h => List.mem_mergeSort.mp h) ?_
      rw [map_sortByField hk]
      exact ascendBy_iff.mpr (pairwise_sortByField field _)
  | object members ih =>
    obtain ⟨hn, hm⟩ := WellFormed.object_iff.mp hw
    rw [sortAt_object]
    refine .object ?_ (fun key => ?_) fun key value result hv hr => ?_
    · exact keys_sortMembers_ascend (by rwa [Members.keys_map])
    · rw [(keys_sortMembers_perm _).mem_iff, Members.keys_map]
    · rw [Members.get?_sortMembers, Members.get?_map fun key => sortAt order (memberText path key),
        hv] at hr
      obtain rfl := Option.some.inj hr
      have hmem := Members.mem_of_get? hv
      exact ih _ hmem _ (hm _ hmem)
  | _ =>
    rw [sortAt_scalar order path rfl]
    exact .scalar rfl

/-- There is no other sorted form. -/
theorem SortsTo.sortAt_eq {path : String} {value result : Json}
    (h : SortsTo order path value result) (hw : value.WellFormed) :
    value.sortAt order path = result := by
  induction h with
  | scalar hs => exact sortAt_scalar order _ hs
  | @object path members sorted ha hk _ ih =>
    obtain ⟨hn, hm⟩ := WellFormed.object_iff.mp hw
    rw [sortAt_object, ← sortMembers_of_ascend ha]
    refine congrArg _ (sortMembers_congr ?_ (ha.imp fun hlt => String.ne_of_lt hlt) fun key => ?_)
    · rwa [Members.keys_map]
    have hg : (members.get? key).map (sortAt order (memberText path key)) =
        (sorted.get? key).map id :=
      Members.map_get?_eq (hk key).symm fun value result hv hr =>
        ih key value result hv hr (hm _ (Members.mem_of_get? hv))
    rw [Members.get?_map fun key => sortAt order (memberText path key), hg, Option.map_id_apply]
  | kept hf hl _ ih =>
    have hi := map_eq_map_of_forall_mem_zip (g := id) hl fun e he =>
      ih e he (WellFormed.list_iff.mp hw e.1 (List.of_mem_zip he).1)
    rw [sortAt_list, hf, hi, List.map_id]
  | @arranged path field items arrangement results hf hp hst hl _ ha ih =>
    have hi := map_eq_map_of_forall_mem_zip (g := id) hl fun e he =>
      ih e he (WellFormed.list_iff.mp hw e.1 (hp.mem_iff.mpr (List.of_mem_zip he).1))
    rw [List.map_id] at hi
    have hk (item : Json) := fieldText?_sortAt order (path ++ "[]") field item
    have haa : AscendBy field arrangement := by
      rw [← hi] at ha
      simpa only [AscendBy, List.pairwise_map, hk] using ha
    rw [sortAt_list, hf, ← hi, eq_sortByField haa hst, map_sortByField hk]

/-- Sorting gives the sorted form of a document, and there is no other one. Elements of a list that
have no text to be sorted by are those that are no objects, lack the field, or have a container
there. -/
theorem sort_eq_iff_sortsTo {order : ListOrder} {document : Json} (hw : document.WellFormed) :
    (∀ result, document.sort order = result ↔ SortsTo order "" document result) ∧
    ∀ (field : String) (element : Json), element.fieldText? field = none ↔
      element.kind ≠ .object ∨ element.field? field = none ∨
        ∃ found, element.field? field = some found ∧ found.isScalar = false := by
  refine ⟨fun result => ⟨?_, fun h => h.sortAt_eq hw⟩, fun _ _ => fieldText?_eq_none_iff⟩
  rintro rfl
  exact sortsTo_sortAt "" hw

theorem sort_eq_iff_sortsTo_ties :
    (Json.object [("b", .null), ("a", .list [.object [("n", .string "B"), ("i", .bool true)],
      .object [("n", .string "B")], .null])]).WellFormed ∧
    SortsTo ((∅ : ListOrder).insert "a[]" "n") ""
      (.object [("b", .null), ("a", .list [.object [("n", .string "B"), ("i", .bool true)],
        .object [("n", .string "B")], .null])])
      (.object [("a", .list [.null, .object [("i", .bool true), ("n", .string "B")],
        .object [("n", .string "B")]]), ("b", .null)]) := by
  have hw : (Json.object [("b", .null), ("a", .list [
      .object [("n", .string "B"), ("i", .bool true)],
      .object [("n", .string "B")], .null])]).WellFormed := by simp [Members.keys]
  refine ⟨hw, ((sort_eq_iff_sortsTo hw).1 _).mp ?_⟩
  simp [sort, sortAt, sortMembers, sortByField, List.mergeSort, sortKeyLE, fieldText?, field?,
    member?, Members.get?_cons, scalarText?, ListOrder.field?_insert, memberText]

end Json

end DocPath
