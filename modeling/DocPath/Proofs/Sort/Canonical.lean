import DocPath.Proofs.Leaves.Locations
import DocPath.Proofs.Sort.Order

/-! # Canonical forms

Documents may differ in the order of keys and, in lists that the order names, in the order of
elements that do not share a sort key, at any depth. Sorting makes such documents equal: it makes
the elements equal first, and leaves each of them the text by which it is sorted.
-/

namespace DocPath

theorem sortByField_perm {field : String} {items others : List Json} (hp : items.Perm others)
    (hn : (items.map (Json.fieldText? field)).Nodup) :
    sortByField field items = sortByField field others := by
  have hps : (sortByField field items).Perm (sortByField field others) :=
    (List.mergeSort_perm ..).trans (hp.trans (List.mergeSort_perm ..).symm)
  refine hps.eq_of_pairwise ?_ (pairwise_sortByField field items)
    (pairwise_sortByField field others)
  intro a b ha hb hab hba
  have ha : a ∈ items := List.mem_mergeSort.mp ha
  have hb : b ∈ items := hp.mem_iff.mpr (List.mem_mergeSort.mp hb)
  exact List.inj_on_of_nodup_map hn ha hb (sortKeyLE_antisymm hab hba)

namespace Json

/-- Values with the same content, but for the order of keys and the order of the elements of a list
whose sort keys are all different. At most one element of such a list has no sort key. The path text
without positions that the values have in their documents tells by which field a list is ordered. -/
inductive Alike (order : ListOrder) : String → Json → Json → Prop where
  | scalar {path : String} {value : Json} : value.isScalar = true → Alike order path value value
  | object {path : String} {members others : Members} :
      (∀ key, key ∈ members.keys ↔ key ∈ others.keys) →
      (∀ key value other, members.get? key = some value → others.get? key = some other →
        Alike order (memberText path key) value other) →
      Alike order path (.object members) (.object others)
  | list {path : String} {items others : List Json} :
      items.length = others.length →
      (∀ e ∈ items.zip others, Alike order (path ++ "[]") e.1 e.2) →
      Alike order path (.list items) (.list others)
  | reordered {path field : String} {items reordering others : List Json} :
      order.field? (path ++ "[]") = some field →
      (items.map (fieldText? field)).Nodup →
      items.Perm reordering →
      reordering.length = others.length →
      (∀ e ∈ reordering.zip others, Alike order (path ++ "[]") e.1 e.2) →
      Alike order path (.list items) (.list others)

/-- Values of one kind that have the same sorted values at each step are the same when sorted. -/
theorem sortAt_congr (order : ListOrder) (path : String) {value other : Json}
    (hs : other.isScalar = false) (hk : value.kind = other.kind) (hv : value.WellFormed)
    (ho : other.WellFormed) (h : ∀ step,
      (value.child? step).map (sortAt order (PositionStyle.extend .collapsed path step)) =
        (other.child? step).map (sortAt order (PositionStyle.extend .collapsed path step))) :
    value.sortAt order path = other.sortAt order path := by
  cases other with
  | list others =>
    cases value with
    | list items =>
      have hi : items.map (sortAt order (path ++ "[]")) =
          others.map (sortAt order (path ++ "[]")) := by
        apply List.ext_getElem?
        intro position
        rw [List.getElem?_map, List.getElem?_map]
        exact h (.index position)
      rw [sortAt_list, sortAt_list, hi]
    | _ => cases hk
  | object others =>
    cases value with
    | object members =>
      rw [sortAt_object, sortAt_object]
      refine congrArg _ (sortMembers_congr ?_ ?_ fun key => ?_)
      · rw [Members.keys_map]
        exact (WellFormed.object_iff.mp hv).1
      · rw [Members.keys_map]
        exact (WellFormed.object_iff.mp ho).1
      · rw [Members.get?_map fun key => sortAt order (memberText path key),
          Members.get?_map fun key => sortAt order (memberText path key)]
        exact h (.key key)
    | _ => cases hk
  | _ => cases hs

namespace Alike

variable {order : ListOrder} {path : String} {value other : Json}

theorem refl (order : ListOrder) (path : String) (value : Json) : Alike order path value value := by
  induction value generalizing path with
  | list items ih =>
    refine .list rfl fun e he => ?_
    rw [List.zip_eq_zipWith, List.zipWith_self] at he
    obtain ⟨item, hm, rfl⟩ := List.mem_map.mp he
    exact ih item hm _
  | object members ih =>
    refine .object (fun _ => Iff.rfl) fun key value other hv ho => ?_
    obtain rfl := Option.some.inj (hv.symm.trans ho)
    exact ih _ (Members.mem_of_get? hv) _
  | _ => exact .scalar rfl

theorem sortAt_eq (h : Alike order path value other) (hv : value.WellFormed)
    (ho : other.WellFormed) : value.sortAt order path = other.sortAt order path := by
  induction h with
  | scalar => rfl
  | @object path members others hk _ ih =>
    refine sortAt_congr order path rfl rfl hv ho fun step => ?_
    cases step with
    | index => rfl
    | key name =>
      refine Members.map_get?_eq (hk name) fun value other hm hm' => ?_
      apply ih name value other hm hm'
      · exact (WellFormed.object_iff.mp hv).2 _ (Members.mem_of_get? hm)
      · exact (WellFormed.object_iff.mp ho).2 _ (Members.mem_of_get? hm')
  | list hl _ ih =>
    have hi := map_eq_map_of_forall_mem_zip hl fun e he => ih e he
      (WellFormed.list_iff.mp hv e.1 (List.of_mem_zip he).1)
      (WellFormed.list_iff.mp ho e.2 (List.of_mem_zip he).2)
    rw [sortAt_list, sortAt_list, hi]
  | @reordered path field items reordering others hf hn hp hl _ ih =>
    have hi := map_eq_map_of_forall_mem_zip hl fun e he => ih e he
      (WellFormed.list_iff.mp hv e.1 (hp.mem_iff.mpr (List.of_mem_zip he).1))
      (WellFormed.list_iff.mp ho e.2 (List.of_mem_zip he).2)
    have hk (item : Json) := fieldText?_sortAt order (path ++ "[]") field item
    have hns : ((items.map (sortAt order (path ++ "[]"))).map (fieldText? field)).Nodup := by
      simpa only [List.map_map, Function.comp_def, hk] using hn
    rw [sortAt_list, sortAt_list, hf]
    exact congrArg _ ((sortByField_perm (hp.map _) hns).trans (congrArg _ hi))

end Alike

/-- Sorting is a canonical form: documents that are alike have the same one. -/
theorem sort_eq_of_alike {order : ListOrder} {document other : Json}
    (hd : document.WellFormed) (ho : other.WellFormed) (h : Alike order "" document other) :
    document.sort order = other.sort order :=
  h.sortAt_eq hd ho

theorem sort_eq_of_alike_nested :
    Alike (((∅ : ListOrder).insert "[]" "n").insert "[].b[]" "n") ""
      (.list [.object [("n", .string "x"), ("b", .list [.object [("n", .null)], .bool true])],
        .null])
      (.list [.null, .object [("b", .list [.bool true, .object [("n", .null)]]),
        ("n", .string "x")]]) ∧
    (Json.list [.object [("n", .string "x"), ("b", .list [.object [("n", .null)], .bool true])],
        .null]).sort (((∅ : ListOrder).insert "[]" "n").insert "[].b[]" "n") =
      (Json.list [.null, .object [("b", .list [.bool true, .object [("n", .null)]]),
        ("n", .string "x")]]).sort (((∅ : ListOrder).insert "[]" "n").insert "[].b[]" "n") := by
  have hi : Alike (((∅ : ListOrder).insert "[]" "n").insert "[].b[]" "n") "[]"
      (.object [("n", .string "x"), ("b", .list [.object [("n", .null)], .bool true])])
      (.object [("b", .list [.bool true, .object [("n", .null)]]), ("n", .string "x")]) := by
    refine .object (by simp [Members.keys, or_comm]) fun key value other hv ho => ?_
    simp only [Members.get?_cons, Members.get?_nil] at hv ho
    by_cases hk : key = "b"
    · subst hk
      cases hv
      cases ho
      have hf : (((∅ : ListOrder).insert "[]" "n").insert "[].b[]" "n").field?
          (memberText "[]" "b" ++ "[]") = some "n" := by simp [ListOrder.field?_insert, memberText]
      refine .reordered hf (by decide) (List.Perm.swap ..) rfl fun e he => ?_
      simp only [List.zip_cons_cons, List.zip_nil_left, List.mem_cons, List.not_mem_nil] at he
      obtain rfl | rfl | he := he
      · exact .refl ..
      · exact .refl ..
      · cases he
    · simp only [hk, if_false, Option.ite_none_right_eq_some] at hv ho
      obtain rfl := Option.some.inj (hv.2.symm.trans ho.2)
      exact .refl ..
  have ha : Alike (((∅ : ListOrder).insert "[]" "n").insert "[].b[]" "n") ""
      (.list [.object [("n", .string "x"), ("b", .list [.object [("n", .null)], .bool true])],
        .null])
      (.list [.null, .object [("b", .list [.bool true, .object [("n", .null)]]),
        ("n", .string "x")]]) := by
    have hf : (((∅ : ListOrder).insert "[]" "n").insert "[].b[]" "n").field? ("" ++ "[]") =
        some "n" := by simp [ListOrder.field?_insert]
    refine .reordered hf (by decide) (List.Perm.swap ..) rfl fun e he => ?_
    simp only [List.zip_cons_cons, List.zip_nil_left, List.mem_cons, List.not_mem_nil] at he
    obtain rfl | rfl | he := he
    · exact .refl ..
    · exact hi
    · cases he
  exact ⟨ha, sort_eq_of_alike (by simp [Members.keys]) (by simp [Members.keys]) ha⟩

end Json

end DocPath
