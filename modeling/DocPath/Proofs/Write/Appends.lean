import DocPath.Proofs.Write.Growth
import DocPath.Proofs.Write.Parts
import Mathlib.Data.List.Pairwise

/-! # Appends in any interleaving

An append through a concrete path puts its value behind the elements of the list there, and changes
no list whose path parts from its own: at most null comes to stand where nothing was. So appends to
several lists may be mixed in any way, and each list has its own values in their order.
-/

namespace DocPath

open Location

/-- Appends in turn, each at the end of the list of a path and each with success, and what they
answer. -/
inductive AppendRun : List (Path × Json) → Json → List Nat → Json → Prop where
  | done (document : Json) : AppendRun [] document [] document
  | append {path : Path} {value document next result : Json} {count : Nat} {counts : List Nat}
      {calls : List (Path × Json)} :
      Path.write (path ++ [.append]) value document = ⟨next, .ok count⟩ →
        AppendRun calls next counts result →
          AppendRun ((path, value) :: calls) document (count :: counts) result

def appendedTo (path : Path) (calls : List (Path × Json)) : List Json :=
  (calls.filter fun call => call.1 = path).map Prod.snd

theorem appendedTo_cons_self (path : Path) (value : Json) (calls : List (Path × Json)) :
    appendedTo path ((path, value) :: calls) = value :: appendedTo path calls := by
  simp [appendedTo]

theorem appendedTo_cons_of_ne {path other : Path} (h : other ≠ path) (value : Json)
    (calls : List (Path × Json)) :
    appendedTo path ((other, value) :: calls) = appendedTo path calls := by
  simp [appendedTo, h]

theorem getD_child?_around_of_ne {document : Json} {step other : Step} {slot : Slot}
    (h : document.slot? step = some slot) (hn : other ≠ step) (child : Json) :
    ((slot.around child).child? other).getD .null = (document.child? other).getD .null := by
  cases hd : document.child? other with
  | some value => rw [child?_around_of_ne h child hn hd]
  | none =>
    cases hf : (slot.around child).child? other with
    | none => rfl
    | some value =>
      -- what is new is padding
      obtain ⟨rfl, -⟩ | hs | ⟨_, _, -, -, -, rfl⟩ := child?_around_eq_some h hf
      · exact absurd rfl hn
      · rw [hd] at hs
        cases hs
      · rfl

namespace Location

variable {location other : Location} {document : Json}

theorem Opens.valueOrNull_assign (h : Opens .write location (some document)) (value : Json)
    (hb : ¬ location <+: other) (ha : ¬ other <+: location) :
    other.valueOrNull (location.assign value document).document = other.valueOrNull document := by
  induction location generalizing document other with
  | nil => exact absurd List.nil_prefix hb
  | cons step rest ih =>
    obtain ⟨slot, hs, hr, hc, he⟩ := h.cons_assign value
    rw [he, Slot.fill]
    cases other with
    | nil => exact absurd List.nil_prefix ha
    | cons first others =>
      rw [valueOrNull_cons, valueOrNull_cons]
      by_cases hn : first = step
      · subst hn
        rw [child?_around hs, Option.getD_some, ← hc]
        exact ih hr (fun hp => hb (List.cons_prefix_cons.mpr ⟨rfl, hp⟩))
          fun hp => ha (List.cons_prefix_cons.mpr ⟨rfl, hp⟩)
      · rw [getD_child?_around_of_ne hs hn]

theorem Opens.fault_assign_append (h : Opens .write location (some document)) (value : Json)
    (back : Location) : (assign value (location ++ back) document).fault =
      (assign value back (location.valueOrNull document)).fault := by
  induction location generalizing document with
  | nil => rfl
  | cons step rest ih =>
    obtain ⟨slot, hs, hr, hc, -⟩ := h.cons_assign value
    rw [List.cons_append, assign_cons value hs, valueOrNull_cons, ← hc]
    exact ih hr

end Location

theorem Place.follow_append_eq_ok {place : Place} {next : List Place}
    (h : place.follow .write .append = .ok next) :
    ∃ items, (place.value.getD .null).orEmptyList = .list items ∧
      next = [place.extend (.index items.length) none] := by
  obtain ⟨location, value⟩ := place
  rcases value with _ | value
  · cases h
    exact ⟨[], rfl, rfl⟩
  cases value with
  | null =>
    cases h
    exact ⟨[], rfl, rfl⟩
  | list items =>
    cases h
    exact ⟨items, rfl, rfl⟩
  | _ => nomatch h

namespace Location

variable {location other : Location} {document value result : Json} {n : Nat}

theorem locations_append_eq_ok {locations : List Location}
    (h : Path.locations .write (location.path ++ [.append]) document = .ok locations) :
    Opens .write location (some document) ∧
      ∃ items, (location.valueOrNull document).orEmptyList = .list items ∧
        locations = [location ++ [.index items.length]] := by
  obtain ⟨places, hp, rfl⟩ := Path.locations_eq_ok_iff.mp h
  rw [Path.places_append_singleton, bind_eq_ok_iff] at hp
  obtain ⟨before, hb, hp⟩ := hp
  have ho := opens_of_places_path hb
  obtain rfl := Except.ok.inj ((places_path ho).symm.trans hb)
  obtain ⟨front, back, hf, hnil, rfl⟩ := Segment.advance_cons_eq_ok_iff.mp hp
  cases hnil
  obtain ⟨items, hi, rfl⟩ := Place.follow_append_eq_ok hf
  exact ⟨ho, items, hi, rfl⟩

/-- A write that appends and succeeds is one assignment behind the elements of the list. -/
theorem write_append_eq_ok
    (h : Path.write (location.path ++ [.append]) value document = ⟨result, .ok n⟩) :
    n = 1 ∧ ∃ items, (location.valueOrNull document).orEmptyList = .list items ∧
      Opens .write (location ++ [.index items.length]) (some document) ∧
      (assign value (location ++ [.index items.length]) document).document = result := by
  obtain ⟨-, -, -, locations, hl, rfl, ha⟩ := Path.write_eq_ok_iff.mp h
  obtain ⟨ho, items, hi, rfl⟩ := locations_append_eq_ok hl
  rw [assignAll_singleton] at ha
  have hfault := ho.fault_assign_append value [.index items.length]
  rw [ha, assign, hi] at hfault
  have hlt : items.length + 1 < positionLimit := by
    by_contra hge
    dsimp only at hfault
    rw [if_pos ⟨Nat.le_refl _, Nat.not_lt.mp hge⟩] at hfault
    cases hfault
  refine ⟨rfl, items, hi, opens_append.mpr ⟨ho, ?_⟩, by rw [ha]⟩
  refine ⟨⟨items, hi, .inr ?_⟩, trivial⟩
  simp [paddingAllowed, hlt]

theorem get?_of_write_append
    (h : Path.write (location.path ++ [.append]) value document = ⟨result, .ok n⟩) :
    ∃ items, (location.valueOrNull document).orEmptyList = .list items ∧
      location.get? result = some (.list (items ++ [value])) := by
  obtain ⟨-, items, hi, ho, rfl⟩ := write_append_eq_ok h
  obtain ⟨⟨_, hi', hp⟩, -⟩ := opens_write_cons.mp ho.of_append
  obtain rfl := Json.list.inj (hi.symm.trans hi')
  refine ⟨items, hi, ?_⟩
  rw [ho.get?_assign_append, assign_cons value
    (slot?_index hi (hp.imp_right lt_positionLimit_of_paddingAllowed)), Slot.fill]
  simp only [set_padTo (Nat.le_refl _), Nat.sub_self, List.replicate_zero, List.append_nil]
  rfl

theorem valueOrNull_of_write_append (hb : ¬ location <+: other) (ha : ¬ other <+: location)
    (h : Path.write (location.path ++ [.append]) value document = ⟨result, .ok n⟩) :
    other.valueOrNull result = other.valueOrNull document := by
  obtain ⟨-, items, -, ho, rfl⟩ := write_append_eq_ok h
  refine ho.valueOrNull_assign value (fun hp => hb ((List.prefix_append _ _).trans hp)) fun hp => ?_
  rcases List.prefix_concat_iff.mp hp with rfl | hp
  · exact hb (List.prefix_append _ _)
  · exact ha hp

end Location

theorem Location.firstValue_of_orEmptyList {location : Location} {document : Json}
    {items : List Json} (h : (location.valueOrNull document).orEmptyList = .list items) :
    location.path.firstValue document = .ok (some (.list items)) ∨
      items = [] ∧ (location.path.firstValue document = .ok none ∨
        location.path.firstValue document = .ok (some .null)) := by
  rw [firstValue_path]
  obtain ⟨hv, rfl⟩ | hv := orEmptyList_eq h
  · refine .inr ⟨rfl, ?_⟩
    rw [valueOrNull] at hv
    cases hg : location.get? document with
    | none => exact .inl rfl
    | some value =>
      rw [hg, Option.getD_some] at hv
      exact .inr (by rw [hv])
  · exact .inl (by rw [get?_of_valueOrNull_list hv])

theorem Path.exists_location_apart {paths : List Path} {path : Path} {location : Location}
    (hp : paths.Pairwise fun path other => ¬ path <+: other ∧ ¬ other <+: path)
    (hc : path.Concrete) (hm : path ∈ paths) (hl : location.path ∈ paths) :
    ∃ target : Location, target.path = path ∧
      (target = location ∨ ¬ target <+: location ∧ ¬ location <+: target) := by
  obtain ⟨target, rfl⟩ := hc.exists_location
  refine ⟨target, rfl, ?_⟩
  by_cases he : target = location
  · exact .inl he
  have : Std.Symm fun path other : Path => ¬ path <+: other ∧ ¬ other <+: path :=
    ⟨fun _ _ h => h.symm⟩
  obtain ⟨hb, ha⟩ := hp.forall hm hl fun he' => he (path_injective he')
  exact .inr ⟨fun h => hb (h.map Step.segment), fun h => ha (h.map Step.segment)⟩

namespace AppendRun

variable {calls : List (Path × Json)} {document result : Json} {counts : List Nat}

theorem counts_eq (h : AppendRun calls document counts result)
    (hc : ∀ call ∈ calls, call.1.Concrete) : counts = List.replicate calls.length 1 := by
  induction h with
  | done => rfl
  | append hw _ ih =>
    obtain ⟨hp, hrest⟩ := List.forall_mem_cons.mp hc
    obtain ⟨location, rfl⟩ := hp.exists_location
    obtain ⟨rfl, -⟩ := write_append_eq_ok hw
    rw [ih hrest]
    rfl

/-- At a location, either nothing is appended in a run and what is there stays, or there is a list
at the end that has the appended values behind the elements that it had before. -/
theorem appended (h : AppendRun calls document counts result) {location : Location}
    (hc : ∀ call ∈ calls, ∃ target : Location, target.path = call.1 ∧
      (target = location ∨ ¬ target <+: location ∧ ¬ location <+: target)) :
    (appendedTo location.path calls = [] ∧
      location.valueOrNull result = location.valueOrNull document) ∨
    ∃ items, (location.valueOrNull document).orEmptyList = .list items ∧
      location.get? result = some (.list (items ++ appendedTo location.path calls)) := by
  induction h with
  | done => exact .inl ⟨rfl, rfl⟩
  | @append _ value document next result _ _ calls hw _ ih =>
    obtain ⟨⟨target, rfl, ht⟩, hrest⟩ := List.forall_mem_cons.mp hc
    obtain rfl | ⟨hb, ha⟩ := ht
    · -- what this append leaves is a list, with which the rest of the run starts
      obtain ⟨items, hi, hg⟩ := get?_of_write_append hw
      have hv : target.valueOrNull next = .list (items ++ [value]) := by
        rw [valueOrNull, hg, Option.getD_some]
      refine .inr ⟨items, hi, ?_⟩
      rw [appendedTo_cons_self]
      obtain ⟨hnil, hs⟩ | ⟨others, ho, hg⟩ := ih hrest
      · rw [hnil]
        exact get?_of_valueOrNull_list (hs.trans hv)
      · rw [hv] at ho
        obtain rfl := Json.list.inj ho
        rw [hg, List.append_assoc]
        rfl
    · have hne : target.path ≠ location.path :=
        fun he => hb (path_injective he ▸ List.prefix_refl _)
      rw [appendedTo_cons_of_ne hne, ← valueOrNull_of_write_append hb ha hw]
      exact ih hrest

end AppendRun

/-- Of a family of concrete paths, none of which begins with another one, each append that succeeds
writes one location. However the appends are mixed, at the end each path to which there was one
reads as the list that it held before, or the empty one in the place of null or of nothing, with the
values appended to it behind, in their order. -/
theorem appends_accumulate {paths : List Path} (hc : ∀ path ∈ paths, path.Concrete)
    (hp : paths.Pairwise fun path other => ¬ path <+: other ∧ ¬ other <+: path)
    {calls : List (Path × Json)} (hm : ∀ call ∈ calls, call.1 ∈ paths)
    {document result : Json} {counts : List Nat} (h : AppendRun calls document counts result) :
    counts = List.replicate calls.length 1 ∧
    ∀ path ∈ paths, appendedTo path calls ≠ [] →
      ∃ items, (path.firstValue document = .ok (some (.list items)) ∨
          items = [] ∧ (path.firstValue document = .ok none ∨
            path.firstValue document = .ok (some .null))) ∧
        path.values result = .ok [.list (items ++ appendedTo path calls)] := by
  refine ⟨h.counts_eq fun call hcall => hc _ (hm call hcall), fun path hpath ha => ?_⟩
  obtain ⟨location, rfl⟩ := (hc path hpath).exists_location
  obtain ⟨hnil, -⟩ | ⟨items, hi, hg⟩ := h.appended fun call hcall =>
    Path.exists_location_apart hp (hc _ (hm call hcall)) (hm call hcall) hpath
  · exact absurd hnil ha
  · refine ⟨items, firstValue_of_orEmptyList hi, ?_⟩
    rw [values_path, hg]
    rfl

def rowsAppended : Json :=
  .object [("rows", .list [.object [("tags", .list [.string "x"])], .list [.bool true, .null]])]

theorem appends_accumulate_shared :
    (∀ path ∈ ([[.field "rows", .index 1], [.field "rows", .index 0, .field "tags"]] : List Path),
      path.Concrete) ∧
    AppendRun [([.field "rows", .index 1], .bool true),
        ([.field "rows", .index 0, .field "tags"], .string "x"),
        ([.field "rows", .index 1], .null)]
      (.object [("rows", .null)]) [1, 1, 1] rowsAppended ∧
    Path.values [.field "rows", .index 1] rowsAppended = .ok [.list [.bool true, .null]] := by
  have hc : ∀ path ∈ ([[.field "rows", .index 1], [.field "rows", .index 0, .field "tags"]] :
      List Path), path.Concrete := by
    simp [Path.Concrete]
  have hr : AppendRun [([.field "rows", .index 1], .bool true),
      ([.field "rows", .index 0, .field "tags"], .string "x"),
      ([.field "rows", .index 1], .null)]
      (.object [("rows", .null)]) [1, 1, 1] rowsAppended :=
    .append rfl (.append rfl (.append rfl (.done _)))
  obtain ⟨-, ha⟩ := appends_accumulate hc (by simp) (by simp) hr
  obtain ⟨items, hi, hv⟩ := ha [.field "rows", .index 1] (by simp) (by decide)
  obtain hi | ⟨rfl, -⟩ := hi
  · cases hi
  · exact ⟨hc, hr, hv⟩

end DocPath
