import DocPath.Path.Filter
import DocPath.Proofs.Sort.Composition
import DocPath.Proofs.Sort.Result

/-! # Sorted keys

Sorting by the empty order moves keys only. It keeps what a step reaches, the length of lists and
what filters look at. Two objects whose sorted forms are equal have, for every key, the same members
with that key in the same order, and so they still have after a member is put into both.
-/

namespace DocPath

namespace Members

theorem filter_put (name key : String) (value : Json) (members : Members) :
    (put name value members).filter (fun m => m.1 = key) =
      if name = key then (name, value) :: (members.filter fun m => m.1 = key).tail
      else members.filter fun m => m.1 = key := by
  induction members with
  | nil => by_cases h : name = key <;> simp [put, h]
  | cons m rest ih =>
    obtain ⟨k, v⟩ := m
    by_cases hk : name = k
    · subst hk
      by_cases h : name = key <;> simp [put, h]
    · by_cases h : k = key
      · subst h
        simp [put, hk, ih]
      · simp [put, hk, ih, h]

theorem map_put (f : Json → Json) (name : String) (value : Json) (members : Members) :
    (put name value members).map (fun m => (m.1, f m.2)) =
      put name (f value) (members.map fun m => (m.1, f m.2)) := by
  induction members with
  | nil => rfl
  | cons m rest ih =>
    obtain ⟨k, v⟩ := m
    simp only [put, List.map_cons]
    split
    · rfl
    · rw [List.map_cons, ih]

end Members

/-- Sorted members are equal when for every key the members with that key are the same. -/
theorem sortMembers_eq_iff {members others : Members} :
    sortMembers members = sortMembers others ↔
      ∀ key, (members.filter fun m => m.1 = key) = others.filter fun m => m.1 = key := by
  have hf (members : Members) (key : String) :
      ((sortMembers members).filter fun m => m.1 = key) = members.filter fun m => m.1 = key := by
    refine filter_mergeSort keyLE_trans keyLE_total (List.pairwise_of_forall_mem_list ?_)
    rintro ⟨a, _⟩ ha ⟨b, _⟩ hb
    have ha := (List.mem_filter.mp ha).2
    have hb := (List.mem_filter.mp hb).2
    simp_all
  constructor
  · intro h key
    rw [← hf members, h, hf]
  · intro h
    refine @eq_of_filter_eq (String × Json) (fun m => some m.1) _ _ ?_ ?_ ?_
    · exact pairwise_sortMembers members
    · exact pairwise_sortMembers others
    · rintro (_ | key)
      · simp
      · simp [hf, h]

theorem sortMembers_put {members others : Members} (h : sortMembers members = sortMembers others)
    (name : String) (value : Json) :
    sortMembers (members.put name value) = sortMembers (others.put name value) := by
  apply sortMembers_eq_iff.mpr
  intro key
  rw [Members.filter_put, Members.filter_put, sortMembers_eq_iff.mp h key]

namespace Json

theorem sortAt_empty (path : String) (value : Json) : value.sortAt ∅ path = value.sort ∅ := by
  rw [sort]
  generalize "" = other
  induction value generalizing path other with
  | list items ih =>
    have hf (list : String) : (∅ : ListOrder).field? list = none := ListOrder.field?_empty list
    rw [sortAt_list, sortAt_list, hf, hf]
    exact congrArg _ (List.map_congr_left fun item hm => ih item hm _ _)
  | object members ih =>
    rw [sortAt_object, sortAt_object]
    refine congrArg _ (congrArg _ (List.map_congr_left fun m hm => ?_))
    rw [ih m hm]
  | _ => rw [sortAt_scalar _ _ rfl, sortAt_scalar _ _ rfl]

theorem sort_list (items : List Json) : (list items).sort ∅ = .list (items.map (sort ∅)) := by
  have hf (list : String) : (∅ : ListOrder).field? list = none := ListOrder.field?_empty list
  rw [sort, sortAt_list, hf]
  exact congrArg _ (List.map_congr_left fun item _ => sortAt_empty _ item)

theorem sort_object (members : Members) :
    (object members).sort ∅ = .object (sortMembers (members.map fun m => (m.1, m.2.sort ∅))) := by
  rw [sort, sortAt_object]
  refine congrArg _ (congrArg _ (List.map_congr_left fun m _ => ?_))
  rw [sortAt_empty]

theorem sort_scalar {value : Json} (h : value.isScalar = true) : value.sort ∅ = value :=
  sortAt_scalar ∅ "" h

theorem sort_sort (value : Json) : (value.sort ∅).sort ∅ = value.sort ∅ :=
  sortAt_sortAt (ListOrder.arrange_arrange ∅) "" value

@[simp] theorem kind_sort (value : Json) : (value.sort ∅).kind = value.kind := by
  cases value with
  | list items => rw [sort_list]; rfl
  | object members => rw [sort_object]; rfl
  | _ => rw [sort_scalar rfl]

theorem get?_sort_members (members : Members) (name : String) :
    Members.get? (sortMembers (members.map fun m => (m.1, m.2.sort ∅))) name =
      (Members.get? members name).map (sort ∅) := by
  rw [Members.get?_sortMembers]
  exact Members.get?_map (fun _ => sort ∅) members name

theorem satisfies_sort (value : Json) (constraints : List Constraint) :
    (value.sort ∅).satisfies constraints = value.satisfies constraints := by
  have hc (c : Constraint) : c.holds (value.sort ∅) = c.holds value := by
    rw [Constraint.holds, Constraint.holds, sort, fieldText?_sortAt]
  simp only [satisfies, kind_sort, hc]

/-- Values whose sorted forms are equal are the same scalar, or lists or objects that are made up of
such values. -/
theorem sort_eq_sort_iff {value other : Json} :
    value.sort ∅ = other.sort ∅ ↔
      value.isScalar = true ∧ value = other ∨
      (∃ items others, value = .list items ∧ other = .list others ∧
        items.map (sort ∅) = others.map (sort ∅)) ∨
      ∃ members others, value = .object members ∧ other = .object others ∧
        sortMembers (members.map fun m => (m.1, m.2.sort ∅)) =
          sortMembers (others.map fun m => (m.1, m.2.sort ∅)) := by
  constructor
  · intro h
    have hk : value.kind = other.kind := by rw [← kind_sort, h, kind_sort]
    cases value with
    | list items =>
      cases other with
      | list others =>
        rw [sort_list, sort_list] at h
        exact .inr (.inl ⟨items, others, rfl, rfl, Json.list.inj h⟩)
      | _ => nomatch hk
    | object members =>
      cases other with
      | object others =>
        rw [sort_object, sort_object] at h
        exact .inr (.inr ⟨members, others, rfl, rfl, Json.object.inj h⟩)
      | _ => nomatch hk
    | _ =>
      have hs : other.isScalar = true := by
        cases other with
        | list | object => nomatch hk
        | _ => rfl
      rw [sort_scalar rfl, sort_scalar hs] at h
      exact .inl ⟨rfl, h⟩
  · rintro (⟨-, rfl⟩ | ⟨items, others, rfl, rfl, h⟩ | ⟨members, others, rfl, rfl, h⟩)
    · rfl
    · rw [sort_list, sort_list, h]
    · rw [sort_object, sort_object, h]

end Json

end DocPath
