import DocPath.Proofs.Sort.Composition
import Mathlib.Data.List.Perm.Basic

/-! # Leaves of a sorted document

Sorting moves values, but it keeps the keys on the way to each leaf. So a sorted document has the
leaves of the document under the same path texts without positions. Where only keys are sorted every
element stays in its place, and the positions are the same too.
-/

namespace DocPath

theorem ListOrder.arrange_perm (order : ListOrder) (list : String) (items : List Json) :
    (order.arrange list items).Perm items := by
  unfold arrange
  cases order.field? list with
  | none => exact .refl _
  | some field => exact List.mergeSort_perm ..

theorem sortMembers_perm (members : Members) : (sortMembers members).Perm members :=
  List.mergeSort_perm ..

namespace Json

theorem leavesAt_list_collapsed (path : String) (items : List Json) :
    (list items).leavesAt .collapsed path =
      items.flatMap (leavesAt .collapsed (path ++ "[]")) := by
  rw [leavesAt_list]
  conv => rhs; rw [← List.zipIdx_map_fst 0 items, List.flatMap_map]
  rfl

theorem leavesAt_list_perm {style : PositionStyle} {items : List Json} {f : Json → Json}
    (hf : ∀ item ∈ items, ∀ path, ((f item).leavesAt style path).Perm (item.leavesAt style path))
    (path : String) :
    ((list (items.map f)).leavesAt style path).Perm ((list items).leavesAt style path) := by
  rw [leavesAt_list, leavesAt_list, List.zipIdx_map, List.flatMap_map]
  exact .flatMap_left _ fun e he => hf e.1 (List.fst_mem_of_mem_zipIdx he) _

theorem leavesAt_object_perm {style : PositionStyle} {members : Members}
    {f : String × Json → Json}
    (hf : ∀ m ∈ members, ∀ path, ((f m).leavesAt style path).Perm (m.2.leavesAt style path))
    (path : String) :
    ((object (sortMembers (members.map fun m => (m.1, f m)))).leavesAt style path).Perm
      ((object members).leavesAt style path) := by
  rw [leavesAt_object, leavesAt_object]
  refine ((sortMembers_perm _).flatMap_right _).trans ?_
  rw [List.flatMap_map]
  exact .flatMap_left _ fun m hm => hf m hm _

variable {style : PositionStyle} {order : ListOrder} (h : style = .concrete → order = ∅)
include h

theorem leavesAt_arrange_perm (path list : String) (items : List Json) :
    ((Json.list (order.arrange list items)).leavesAt style path).Perm
      ((Json.list items).leavesAt style path) := by
  cases style with
  | concrete => rw [h rfl, ListOrder.arrange_empty]
  | collapsed =>
    rw [leavesAt_list_collapsed, leavesAt_list_collapsed]
    exact (order.arrange_perm list items).flatMap_right _

/-- A sorted value has the leaves of the value, wherever the two stand. -/
theorem leavesAt_sortAt_perm (path place : String) (value : Json) :
    ((value.sortAt order place).leavesAt style path).Perm (value.leavesAt style path) := by
  induction value generalizing path place with
  | list items ih =>
    rw [sortAt_list_arrange]
    refine (leavesAt_arrange_perm h path _ _).trans ?_
    exact leavesAt_list_perm (fun item hm path => ih item hm path _) path
  | object members ih =>
    rw [sortAt_object]
    exact leavesAt_object_perm (fun m hm path => ih m hm path _) path
  | _ => rw [sortAt_scalar order place rfl]

theorem leaves_sort_perm (document : Json) :
    ((document.sort order).leaves style).Perm (document.leaves style) :=
  leavesAt_sortAt_perm h "" "" document

theorem toList_leaves_sort (document : Json) :
    (Std.TreeSet.ofList (((document.sort order).leaves style).map Prod.fst)).toList =
      (Std.TreeSet.ofList ((document.leaves style).map Prod.fst)).toList := by
  refine Std.TreeSet.Equiv.toList_eq (.of_forall_mem_iff fun text => ?_)
  rw [Std.TreeSet.mem_ofList, Std.TreeSet.mem_ofList, List.contains_iff_mem, List.contains_iff_mem]
  exact ((leaves_sort_perm h document).map Prod.fst).mem_iff

omit h

/-- Sorting keeps the content of a document. By whatever order its lists are sorted, the shapes of
its leaf paths are the same, and so is each leaf under its shape, as often as it is there. When only
keys are sorted this holds of the leaf paths with their positions. -/
theorem leaves_sort (order : ListOrder) (document : Json) :
    (document.sort order).leafShapes.toList = document.leafShapes.toList ∧
    ((document.sort order).leaves .collapsed).Perm (document.leaves .collapsed) ∧
    (document.sort ∅).leafPaths.toList = document.leafPaths.toList ∧
    ((document.sort ∅).leaves .concrete).Perm (document.leaves .concrete) := by
  have hs : PositionStyle.collapsed = .concrete → order = ∅ := nofun
  have hp : PositionStyle.concrete = .concrete → (∅ : ListOrder) = ∅ := fun _ => rfl
  exact ⟨toList_leaves_sort hs document, leaves_sort_perm hs document,
    toList_leaves_sort hp document, leaves_sort_perm hp document⟩

end Json

end DocPath
