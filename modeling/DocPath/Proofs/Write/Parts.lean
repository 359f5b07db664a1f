import DocPath.Proofs.Json.Children
import DocPath.Proofs.Write.Single

/-! # Parts of a document

A document is a part of another one when all that it has is there in the other one too, but for null
in the place of values that it does not have yet. Where no list is too long to be created by a
write, the way to every place of the whole is open in the part, and it stays a part when the value
there is assigned.
-/

namespace DocPath

theorem Members.eq_or_mem_of_mem_put {key : String} {value : Json} {members : Members}
    {m : String × Json} (h : m ∈ put key value members) : m = (key, value) ∨ m ∈ members := by
  induction members with
  | nil => exact .inl (List.mem_singleton.mp h)
  | cons first rest ih =>
    obtain ⟨k, v⟩ := first
    simp only [put] at h
    split at h
    · next hk =>
      rcases List.mem_cons.mp h with rfl | h
      · exact .inl (by rw [hk])
      · exact .inr (List.mem_cons_of_mem _ h)
    · rcases List.mem_cons.mp h with rfl | h
      · exact .inr (List.mem_cons_self ..)
      · exact (ih h).imp_right (List.mem_cons_of_mem _)

section Around

variable {document : Json} {step : Step} {slot : Slot} (h : document.slot? step = some slot)
include h

/-- What is one step inside a filled slot was put there, was there before, or is null in front of a
new last element. -/
theorem child?_around_eq_some {child value : Json} {other : Step}
    (hc : (slot.around child).child? other = some value) :
    other = step ∧ value = child ∨ document.child? other = some value ∨
      ∃ position last, other = .index position ∧ step = .index last ∧ position < last ∧
        value = .null := by
  by_cases he : other = step
  · subst he
    rw [child?_around h, Option.some.injEq] at hc
    exact .inl ⟨rfl, hc.symm⟩
  refine .inr ?_
  obtain ⟨name, members, rfl, hm, rfl⟩ | ⟨last, items, rfl, hi, rfl⟩ := slot?_eq_some h
  · cases other with
    | key key =>
      change Members.get? (Members.put ..) key = _ at hc
      rw [Members.get?_put, if_neg fun hk => he (congrArg Step.key hk)] at hc
      exact .inl ((child?_key_of_orEmptyObject key hm).trans hc)
    | index => nomatch hc
  · cases other with
    | key => nomatch hc
    | index position =>
      change (List.set ..)[position]? = _ at hc
      have hne : position ≠ last := fun hp => he (congrArg Step.index hp)
      rw [List.getElem?_set_ne hne.symm, padTo] at hc
      rcases Nat.lt_or_ge position items.length with hlt | hge
      · rw [List.getElem?_append_left hlt] at hc
        exact .inl ((child?_index_of_orEmptyList position hi).trans hc)
      · rw [List.getElem?_append_right hge, List.getElem?_replicate,
          Option.ite_none_right_eq_some] at hc
        obtain ⟨hlt, hn⟩ := hc
        exact .inr ⟨position, last, rfl, rfl, by omega, (Option.some.inj hn).symm⟩

theorem kind_around (child : Json) {value found : Json} (hc : value.child? step = some found) :
    (slot.around child).kind = value.kind ∧ (slot.around child).isScalar = false := by
  obtain ⟨name, members, rfl, -, rfl⟩ | ⟨position, items, rfl, -, rfl⟩ := slot?_eq_some h
  · cases value with
    | object => exact ⟨rfl, rfl⟩
    | _ => nomatch hc
  · cases value with
    | list => exact ⟨rfl, rfl⟩
    | _ => nomatch hc

theorem wellFormed_around (hw : document.WellFormed) {child : Json} (hc : child.WellFormed) :
    (slot.around child).WellFormed := by
  obtain ⟨name, members, rfl, hm, rfl⟩ | ⟨position, items, rfl, hi, rfl⟩ := slot?_eq_some h
  · have ho : (Json.object members).WellFormed := by
      obtain ⟨rfl, rfl⟩ | rfl := orEmptyObject_eq hm
      · exact .object .nil nofun
      · exact hw
    obtain ⟨hn, hv⟩ := Json.WellFormed.object_iff.mp ho
    refine .object ?_ fun m hmem => ?_
    · rw [Members.keys_put]
      split
      · exact hn
      · next hk =>
        refine List.nodup_append.mpr ⟨hn, List.pairwise_singleton _ name, ?_⟩
        rintro key hkey _ hs rfl
        exact hk (List.mem_singleton.mp hs ▸ hkey)
    · rcases Members.eq_or_mem_of_mem_put hmem with rfl | hmem
      · exact hc
      · exact hv m hmem
  · have hl : (Json.list items).WellFormed := by
      obtain ⟨rfl, rfl⟩ | rfl := orEmptyList_eq hi
      · exact .list nofun
      · exact hw
    refine .list fun item hmem => ?_
    rcases List.mem_or_eq_of_mem_set hmem with hmem | rfl
    · rcases List.mem_append.mp hmem with hmem | hmem
      · exact Json.WellFormed.list_iff.mp hl item hmem
      · exact List.eq_of_mem_replicate hmem ▸ .null
    · exact hc

end Around

theorem Location.Opens.wellFormed_assign {location : Location} {document value : Json}
    (h : Opens .write location (some document)) (hw : document.WellFormed)
    (hv : value.WellFormed) : (location.assign value document).document.WellFormed := by
  induction location generalizing document with
  | nil => exact hv
  | cons step rest ih =>
    obtain ⟨slot, hs, hr, hc, ha⟩ := h.cons_assign value
    rw [ha]
    refine wellFormed_around hs hw (ih hr ?_)
    rw [hc]
    cases hd : document.child? step with
    | none => exact .null
    | some child => exact hw.of_mem (Json.mem_children_of_child? hd)

namespace Json

/-- No list, at any depth, is longer than the padding with which a write can create it. -/
def ShortLists (document : Json) : Prop :=
  document.Everywhere fun value => ∀ items, value = .list items → items.length ≤ maxPadding + 1

theorem ShortLists.addressable {document : Json} (h : document.ShortLists) :
    document.Addressable := by
  refine .of_everywhere h fun items hl => ?_
  have := hl items rfl
  simp only [maxPadding, positionLimit, UInt64.size] at this ⊢
  omega

/-- Null stands for any value, and a scalar only for itself. -/
def StandsFor (value original : Json) : Prop :=
  value = .null ∨ value.kind = original.kind ∧ (value.isScalar = true → value = original)

/-- What is at a location of the part stands for what the whole has there. -/
def PartOf (part whole : Json) : Prop :=
  ∀ location value, Location.get? location part = some value →
    ∃ original, Location.get? location whole = some original ∧ value.StandsFor original

namespace PartOf

variable {part whole : Json}

theorem refl (whole : Json) : PartOf whole whole :=
  fun _ value h => ⟨value, h, .inr ⟨rfl, fun _ => rfl⟩⟩

theorem standsFor (h : PartOf part whole) : part.StandsFor whole := by
  obtain ⟨_, ho, hs⟩ := h [] part rfl
  exact Option.some.inj ho ▸ hs

theorem kind_eq (h : PartOf part whole) (hn : part.kind ≠ .null) : part.kind = whole.kind := by
  rcases h.standsFor with rfl | ⟨hk, -⟩
  · exact absurd rfl hn
  · exact hk

theorem exists_child (h : PartOf part whole) {step : Step} {value : Json}
    (hv : part.child? step = some value) :
    ∃ original, whole.child? step = some original ∧ PartOf value original := by
  have below (location : Location) (found : Json) (hf : location.get? value = some found) :
      ∃ original, whole.child? step = some original ∧ ∃ there,
        location.get? original = some there ∧ found.StandsFor there := by
    obtain ⟨there, ht, hs⟩ := h (step :: location) found (by rw [Location.get?_cons, hv]; exact hf)
    obtain ⟨original, ho, ht⟩ := Option.bind_eq_some_iff.mp ht
    exact ⟨original, ho, there, ht, hs⟩
  obtain ⟨original, ho, -⟩ := below [] value rfl
  refine ⟨original, ho, fun location found hf => ?_⟩
  obtain ⟨_, ho', hd⟩ := below location found hf
  exact Option.some.inj (ho.symm.trans ho') ▸ hd

theorem intro (hs : part.StandsFor whole) (h : ∀ step value, part.child? step = some value →
    ∃ original, whole.child? step = some original ∧ PartOf value original) :
    PartOf part whole := by
  rintro (_ | ⟨step, rest⟩) found hf
  · exact ⟨whole, rfl, Option.some.inj hf ▸ hs⟩
  · obtain ⟨value, hv, hf⟩ := Option.bind_eq_some_iff.mp hf
    obtain ⟨original, ho, hp⟩ := h step value hv
    rw [Location.get?_cons, ho]
    exact hp rest found hf

theorem null (whole : Json) : PartOf .null whole :=
  intro (.inl rfl) fun step _ hv => by cases step <;> nomatch hv

theorem getD_child (h : PartOf part whole) {step : Step} {original : Json}
    (ho : whole.child? step = some original) :
    PartOf ((part.child? step).getD .null) original := by
  cases hv : part.child? step with
  | none => exact null original
  | some value =>
    obtain ⟨_, ho', hp⟩ := h.exists_child hv
    exact Option.some.inj (ho.symm.trans ho') ▸ hp

theorem admits (h : PartOf part whole) (hl : whole.ShortLists) {step : Step} {original : Json}
    (ho : whole.child? step = some original) : part.Admits step := by
  cases step with
  | key name =>
    cases whole with
    | object members =>
      rcases h.standsFor with rfl | ⟨hk, -⟩
      · exact ⟨[], rfl⟩
      · cases part with
        | object members => exact ⟨members, rfl⟩
        | _ => cases hk
    | _ => cases ho
  | index position =>
    cases whole with
    | list items =>
      have hp := (List.getElem?_eq_some_iff.mp ho).1
      have hi := hl.here items rfl
      have allowed (length : Nat) : paddingAllowed position length = true := by
        simp only [paddingAllowed, Bool.and_eq_true, decide_eq_true_eq]
        simp only [maxPadding, positionLimit, UInt64.size] at hi ⊢
        omega
      rcases h.standsFor with rfl | ⟨hk, -⟩
      · exact ⟨[], rfl, .inr (allowed 0)⟩
      · cases part with
        | list items => exact ⟨items, rfl, .inr (allowed items.length)⟩
        | _ => cases hk
    | _ => cases ho

theorem around (h : PartOf part whole) {step : Step} {slot : Slot} {original child : Json}
    (hs : part.slot? step = some slot) (ho : whole.child? step = some original)
    (hp : PartOf child original) : PartOf (slot.around child) whole := by
  obtain ⟨hk, hns⟩ := kind_around hs child ho
  refine intro (.inr ⟨hk, fun hsc => ?_⟩) fun other found hf => ?_
  · rw [hns] at hsc
    nomatch hsc
  obtain ⟨rfl, rfl⟩ | hf | ⟨position, last, rfl, rfl, hlt, rfl⟩ := child?_around_eq_some hs hf
  · exact ⟨original, ho, hp⟩
  · exact h.exists_child hf
  · -- the padding stands for elements that the whole has in front of the one being written
    cases whole with
    | list items =>
      have hi := hlt.trans (List.getElem?_eq_some_iff.mp ho).1
      exact ⟨items[position], List.getElem?_eq_getElem hi, null _⟩
    | _ => nomatch ho

variable {location : Location} {value : Json}

theorem opens (h : PartOf part whole) (hl : whole.ShortLists)
    (hv : location.get? whole = some value) : Location.Opens .write location (some part) := by
  induction location generalizing part whole with
  | nil => trivial
  | cons step rest ih =>
    obtain ⟨original, ho, hv⟩ := Option.bind_eq_some_iff.mp hv
    exact Location.opens_write_cons.mpr ⟨h.admits hl ho, ih (h.getD_child ho) (hl.child ho) hv⟩

theorem assign (h : PartOf part whole) (hl : whole.ShortLists)
    (hv : location.get? whole = some value) :
    PartOf (location.assign value part).document whole := by
  induction location generalizing part whole with
  | nil => exact Option.some.inj hv ▸ refl _
  | cons step rest ih =>
    obtain ⟨slot, hs, -, hc, ha⟩ := (h.opens hl hv).cons_assign value
    obtain ⟨original, ho, hv⟩ := Option.bind_eq_some_iff.mp hv
    rw [ha]
    exact h.around hs ho (ih (hc ▸ h.getD_child ho) (hl.child ho) hv)

end PartOf

end Json

end DocPath
