import DocPath.Proofs.General
import DocPath.Sort
import Mathlib.Data.List.Nodup

/-! # Sorted members and lists

Members and elements are sorted by texts, and the sort is stable: what has the same text keeps its
order. So an object finds the same values by its keys after it is sorted. The text of a field is
that of a scalar below the value, and sorting inside the value does not change it.
-/

namespace DocPath

theorem sortKeyLE_trans (a b c : Option String) (hab : sortKeyLE a b = true)
    (hbc : sortKeyLE b c = true) : sortKeyLE a c = true := by
  rcases a with _ | a
  · rfl
  rcases b with _ | b
  · nomatch hab
  rcases c with _ | c
  · nomatch hbc
  simp only [sortKeyLE, decide_eq_true_eq] at hab hbc ⊢
  exact String.le_trans hab hbc

theorem sortKeyLE_total (a b : Option String) : (sortKeyLE a b || sortKeyLE b a) = true := by
  rcases a with _ | a <;> rcases b with _ | b <;> simp only [sortKeyLE, Bool.or_true, Bool.true_or]
  simpa using String.le_total a b

theorem sortKeyLE_refl (a : Option String) : sortKeyLE a a = true := by
  simpa using sortKeyLE_total a a

theorem sortKeyLE_antisymm {a b : Option String} (hab : sortKeyLE a b = true)
    (hba : sortKeyLE b a = true) : a = b := by
  rcases a with _ | a <;> rcases b with _ | b
  · rfl
  · nomatch hba
  · nomatch hab
  · simp only [sortKeyLE, decide_eq_true_eq] at hab hba
    rw [String.le_antisymm hab hba]

theorem sortKeyLE_iff {a b : Option String} :
    sortKeyLE a b = true ↔ ∀ text, a = some text → ∃ text', b = some text' ∧ text ≤ text' := by
  rcases a with _ | a <;> rcases b with _ | b <;> simp [sortKeyLE]

theorem keyLE_trans (a b c : String × Json) (hab : decide (a.1 ≤ b.1) = true)
    (hbc : decide (b.1 ≤ c.1) = true) : decide (a.1 ≤ c.1) = true := by
  simp only [decide_eq_true_eq] at hab hbc ⊢
  exact String.le_trans hab hbc

theorem keyLE_total (a b : String × Json) : (decide (a.1 ≤ b.1) || decide (b.1 ≤ a.1)) = true := by
  simpa using String.le_total a.1 b.1

namespace Members

theorem get?_eq_head?_filter (members : Members) (key : String) :
    members.get? key = (members.filter fun m => m.1 = key).head?.map Prod.snd := by
  induction members with
  | nil => rfl
  | cons m rest ih =>
    obtain ⟨k, v⟩ := m
    rw [get?_cons, List.filter_cons]
    by_cases h : key = k
    · simp [h]
    · simp [h, Ne.symm h, ih]

theorem mem_keys_iff {members : Members} {key : String} :
    key ∈ members.keys ↔ ∃ value, members.get? key = some value := by
  constructor
  · intro h
    obtain ⟨m, hm, rfl⟩ := List.mem_map.mp h
    rw [get?_eq_head?_filter, ← Option.isSome_iff_exists, Option.isSome_map, List.isSome_head?]
    simpa using ⟨m.2, hm⟩
  · rintro ⟨value, h⟩
    exact List.mem_map.mpr ⟨_, mem_of_get? h, rfl⟩

theorem map_get?_eq {α : Type} {members others : Members} {f g : Json → α} {key : String}
    (hk : key ∈ members.keys ↔ key ∈ others.keys)
    (h : ∀ value other, members.get? key = some value → others.get? key = some other →
      f value = g other) : (members.get? key).map f = (others.get? key).map g := by
  rw [mem_keys_iff, mem_keys_iff] at hk
  cases hv : members.get? key with
  | none =>
    cases ho : others.get? key with
    | none => rfl
    | some other =>
      obtain ⟨value, hv'⟩ := hk.mpr ⟨other, ho⟩
      rw [hv] at hv'
      nomatch hv'
  | some value =>
    obtain ⟨other, ho⟩ := hk.mp ⟨value, hv⟩
    rw [ho]
    exact congrArg some (h value other hv ho)

theorem keys_map (f : String × Json → Json) (members : Members) :
    keys (members.map fun m => (m.1, f m)) = members.keys := by
  rw [keys, List.map_map]
  rfl

theorem get?_map (f : String → Json → Json) (members : Members) (key : String) :
    get? (members.map fun m => (m.1, f m.1 m.2)) key = (members.get? key).map (f key) := by
  induction members with
  | nil => rfl
  | cons m rest ih =>
    obtain ⟨k, v⟩ := m
    simp only [List.map_cons, get?_cons, ih]
    split
    · next h => simp [h]
    · rfl

theorem get?_sortMembers (members : Members) (key : String) :
    (sortMembers members).get? key = members.get? key := by
  have h : (members.filter fun m => m.1 = key).Pairwise
      fun a b => decide (a.1 ≤ b.1) = true := by
    refine List.pairwise_of_forall_mem_list fun a ha b hb => ?_
    have hak : a.1 = key := by simpa using (List.mem_filter.mp ha).2
    have hbk : b.1 = key := by simpa using (List.mem_filter.mp hb).2
    simp [hak, hbk]
  rw [get?_eq_head?_filter, get?_eq_head?_filter, sortMembers,
    filter_mergeSort keyLE_trans keyLE_total h]

end Members

theorem pairwise_sortMembers (members : Members) :
    (sortMembers members).Pairwise fun a b => decide (a.1 ≤ b.1) = true :=
  List.pairwise_mergeSort keyLE_trans keyLE_total members

theorem sortMembers_sortMembers (members : Members) :
    sortMembers (sortMembers members) = sortMembers members :=
  List.mergeSort_of_pairwise (pairwise_sortMembers members)

theorem keys_sortMembers_perm (members : Members) :
    (sortMembers members).keys.Perm members.keys :=
  (List.mergeSort_perm ..).map Prod.fst

theorem keys_sortMembers_ascend {members : Members} (hn : members.keys.Nodup) :
    (sortMembers members).keys.Pairwise (· < ·) := by
  have hle : (sortMembers members).keys.Pairwise (· ≤ ·) :=
    List.pairwise_map.mpr ((pairwise_sortMembers members).imp of_decide_eq_true)
  have hne := (keys_sortMembers_perm members).nodup_iff.mpr hn
  exact hle.imp₂ (fun _ _ => Std.lt_of_le_of_ne) hne

theorem sortMembers_of_ascend {members : Members} (h : members.keys.Pairwise (· < ·)) :
    sortMembers members = members :=
  List.mergeSort_of_pairwise
    ((List.pairwise_map.mp h).imp fun hlt => decide_eq_true (Std.le_of_lt hlt))

theorem sortMembers_congr {members others : Members} (hm : members.keys.Nodup)
    (ho : others.keys.Nodup) (h : ∀ key, members.get? key = others.get? key) :
    sortMembers members = sortMembers others := by
  have mem_iff (m : String × Json) : m ∈ members ↔ m ∈ others :=
    ⟨fun hmem => Members.mem_of_get? (h m.1 ▸ Members.get?_of_mem hm hmem),
      fun hmem => Members.mem_of_get? (h m.1 ▸ Members.get?_of_mem ho hmem)⟩
  have hp : members.Perm others :=
    (List.perm_ext_iff_of_nodup (List.Nodup.of_map _ hm) (List.Nodup.of_map _ ho)).mpr mem_iff
  have hps : (sortMembers members).Perm (sortMembers others) :=
    (List.mergeSort_perm ..).trans (hp.trans (List.mergeSort_perm ..).symm)
  refine hps.eq_of_pairwise ?_ (pairwise_sortMembers members) (pairwise_sortMembers others)
  intro a b ha hb hab hba
  have hk : a.1 = b.1 := String.le_antisymm (of_decide_eq_true hab) (of_decide_eq_true hba)
  have hga := Members.get?_of_mem hm (List.mem_mergeSort.mp ha)
  have hgb := Members.get?_of_mem ho (List.mem_mergeSort.mp hb)
  rw [h, hk, hgb] at hga
  exact Prod.ext hk (Option.some.inj hga).symm

theorem map_sortMembers (f : String × Json → Json) (members : Members) :
    (sortMembers members).map (fun m => (m.1, f m)) =
      sortMembers (members.map fun m => (m.1, f m)) :=
  List.map_mergeSort fun _ _ _ _ => rfl

theorem pairwise_sortByField (field : String) (items : List Json) :
    (sortByField field items).Pairwise
      fun a b => sortKeyLE (a.fieldText? field) (b.fieldText? field) = true :=
  List.pairwise_mergeSort
    (fun a b c => sortKeyLE_trans (a.fieldText? field) (b.fieldText? field) (c.fieldText? field))
    (fun a b => sortKeyLE_total (a.fieldText? field) (b.fieldText? field)) items

theorem sortByField_sortByField (field : String) (items : List Json) :
    sortByField field (sortByField field items) = sortByField field items :=
  List.mergeSort_of_pairwise (pairwise_sortByField field items)

theorem map_sortByField {field : String} {f : Json → Json}
    (h : ∀ item, (f item).fieldText? field = item.fieldText? field) (items : List Json) :
    (sortByField field items).map f = sortByField field (items.map f) :=
  List.map_mergeSort fun a _ b _ => by rw [h a, h b]

namespace Json

variable (order : ListOrder)

theorem member?_sortAt (path name : String) (value : Json) :
    (value.sortAt order path).member? name =
      (value.member? name).map (sortAt order (memberText path name)) := by
  cases value with
  | object members =>
    rw [sortAt_object]
    exact (Members.get?_sortMembers ..).trans
      (Members.get?_map (fun key => sortAt order (memberText path key)) ..)
  | list items =>
    rw [sortAt_list]
    rfl
  | _ =>
    rw [sortAt_scalar _ _ rfl]
    rfl

theorem descend?_sortAt (path : String) (value : Json) (keys : List String) :
    ∃ below, (value.sortAt order path).descend? keys =
      (value.descend? keys).map (sortAt order below) := by
  induction keys generalizing path value with
  | nil => exact ⟨path, rfl⟩
  | cons key keys ih =>
    have hc (value : Json) :
        value.descend? (key :: keys) = (value.member? key).bind (·.descend? keys) := rfl
    simp only [hc, member?_sortAt]
    cases value.member? key with
    | none => exact ⟨path, rfl⟩
    | some child => exact ih (memberText path key) child

theorem field?_sortAt (path name : String) (value : Json) :
    ∃ below, (value.sortAt order path).field? name =
      (value.field? name).map (sortAt order below) := by
  simp only [field?, member?_sortAt]
  cases value.member? name with
  | some child => exact ⟨_, rfl⟩
  | none =>
    by_cases hd : '.' ∈ name.toList
    · simpa [hd] using descend?_sortAt order path value (dottedParts name)
    · exact ⟨path, by simp [hd]⟩

theorem scalarText?_sortAt (path : String) (value : Json) :
    (value.sortAt order path).scalarText? = value.scalarText? := by
  cases value with
  | object members =>
    rw [sortAt_object]
    rfl
  | list items =>
    rw [sortAt_list]
    rfl
  | _ => rw [sortAt_scalar _ _ rfl]

/-- What a list is sorted by is the same before and after its elements are sorted. -/
theorem fieldText?_sortAt (path name : String) (value : Json) :
    (value.sortAt order path).fieldText? name = value.fieldText? name := by
  obtain ⟨below, h⟩ := field?_sortAt order path name value
  rw [fieldText?, fieldText?, h]
  cases value.field? name with
  | none => rfl
  | some found => exact scalarText?_sortAt order below found

end Json

end DocPath
