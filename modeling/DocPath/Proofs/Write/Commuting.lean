import DocPath.Proofs.Sort.Canonical
import DocPath.Proofs.Write.Concrete
import DocPath.Proofs.Write.Parts

/-! # Writes that commute

Two concrete paths, neither of which begins with the other, part at some step. Above it both writes
pass the same objects and lists, whichever of them creates these, and from there on each one fills a
slot of its own. So the writes may change places, and only new keys of one object can come out in
another order.
-/

namespace DocPath

open Json Location

theorem paddingAllowed_mono {position length longer : Nat} (hl : length ≤ longer)
    (h : paddingAllowed position length = true) : paddingAllowed position longer = true := by
  simp only [paddingAllowed, Bool.and_eq_true, decide_eq_true_eq] at h ⊢
  omega

theorem set_padTo_comm {first second : Nat} (hn : first ≠ second) (items : List Json)
    (child other : Json) :
    (padTo second ((padTo first items).set first child)).set second other =
      (padTo first ((padTo second items).set second other)).set first child := by
  ext1 index
  simp only [List.getElem?_set, getElem?_padTo, List.length_set, length_padTo]
  grind

namespace Json

variable {document : Json} {step other : Step} {slot slot' : Slot}

theorem alike_put_put (path : String) {name key : String} (hn : name ≠ key) (members : Members)
    (child other : Json) :
    Alike ∅ path (.object (Members.put key other (Members.put name child members)))
      (.object (Members.put name child (Members.put key other members))) := by
  have hg (k : String) : (Members.put key other (Members.put name child members)).get? k =
      (Members.put name child (Members.put key other members)).get? k := by
    simp only [Members.get?_put]
    grind
  refine .object (fun k => ?_) fun k value value' hv hv' => ?_
  · rw [Members.mem_keys_iff, Members.mem_keys_iff, hg]
  · rw [hg, hv', Option.some.injEq] at hv
    exact hv ▸ .refl ..

theorem elements_apart {items : List Json} {first second : Nat} (hne : first ≠ second)
    (child child' : Json)
    (hp : first < items.length ∨ paddingAllowed first items.length = true)
    (hb : (list ((padTo first items).set first child)).Admits (.index second)) :
    (list ((padTo second items).set second child')).Admits (.index first) ∧
    ∃ around around',
      (list ((padTo first items).set first child)).slot? (.index second) =
        some ⟨items[second]?.getD .null, around⟩ ∧
      (list ((padTo second items).set second child')).slot? (.index first) =
        some ⟨items[first]?.getD .null, around'⟩ ∧
      ∀ path, Alike ∅ path (around child') (around' child) := by
  have hle : items.length ≤ ((padTo second items).set second child').length := by
    rw [List.length_set, length_padTo]
    omega
  have hp' : first < ((padTo second items).set second child').length ∨
      paddingAllowed first ((padTo second items).set second child').length = true :=
    hp.imp (fun hlt => hlt.trans_le hle) (paddingAllowed_mono hle)
  obtain ⟨_, hl, hq⟩ := hb
  obtain rfl := Json.list.inj hl
  have hs := @slot?_index (.list _) _ first rfl
    (hp'.imp_right lt_positionLimit_of_paddingAllowed)
  have ho := @slot?_index (.list _) _ second rfl
    (hq.imp_right lt_positionLimit_of_paddingAllowed)
  rw [List.getElem?_set_ne hne.symm, getD_padTo] at hs
  rw [List.getElem?_set_ne hne, getD_padTo] at ho
  refine ⟨⟨_, rfl, hp'⟩, _, _, ho, hs, fun path => ?_⟩
  rw [set_padTo_comm hne]
  exact .refl ..

/-- Where two steps part, filling one slot leaves the other one open with what it holds, and the
order in which the two are filled does not matter but for the order of keys. -/
theorem slots_apart (hn : step ≠ other) (hs : document.slot? step = some slot)
    (ho : document.slot? other = some slot') (ha : document.Admits step) (child child' : Json)
    (hb : (slot.around child).Admits other) :
    (slot'.around child').Admits step ∧
    ∃ around around', (slot.around child).slot? other = some ⟨slot'.child, around⟩ ∧
      (slot'.around child').slot? step = some ⟨slot.child, around'⟩ ∧
      ∀ path, Alike ∅ path (around child') (around' child) := by
  obtain ⟨name, members, rfl, hm, rfl⟩ | ⟨first, items, rfl, hi, rfl⟩ := slot?_eq_some hs
  · obtain ⟨key, _, rfl, hm', rfl⟩ | ⟨second, _, rfl, hi', rfl⟩ := slot?_eq_some ho
    · obtain rfl := Json.object.inj (hm.symm.trans hm')
      have hne : name ≠ key := fun he => hn (congrArg Step.key he)
      refine ⟨⟨_, rfl⟩, fun last => .object (Members.put key last (Members.put name child members)),
        fun last => .object (Members.put name last (Members.put key child' members)),
        (slot?_key key rfl).trans ?_, (slot?_key name rfl).trans ?_,
        fun path => alike_put_put path hne members child child'⟩
      · rw [Members.get?_put, if_neg hne.symm]
      · rw [Members.get?_put, if_neg hne]
    · -- the first write leaves an object, which has no place for a position
      obtain ⟨_, hl, -⟩ := hb
      nomatch hl
  · obtain ⟨key, _, rfl, hm', rfl⟩ | ⟨second, _, rfl, hi', rfl⟩ := slot?_eq_some ho
    · -- the first write leaves a list, which has no place for a key
      obtain ⟨_, hl⟩ := hb
      nomatch hl
    · obtain rfl := Json.list.inj (hi.symm.trans hi')
      obtain ⟨_, hl, hp⟩ := ha
      obtain rfl := Json.list.inj (hi.symm.trans hl)
      exact elements_apart (fun he => hn (congrArg Step.index he)) child child' hp hb

theorem alike_around (hs : document.slot? step = some slot) {child child' : Json}
    (h : ∀ path, Alike ∅ path child child') (path : String) :
    Alike ∅ path (slot.around child) (slot.around child') := by
  obtain ⟨name, members, rfl, -, rfl⟩ | ⟨position, items, rfl, -, rfl⟩ := slot?_eq_some hs
  · refine .object (fun key => ?_) fun key value value' hv hv' => ?_
    · rw [Members.keys_put, Members.keys_put]
    · rw [Members.get?_put] at hv hv'
      by_cases hk : key = name
      · rw [if_pos hk, Option.some.injEq] at hv hv'
        exact hv ▸ hv' ▸ h _
      · rw [if_neg hk] at hv hv'
        exact Option.some.inj (hv.symm.trans hv') ▸ .refl ..
  · refine .list (by rw [List.length_set, List.length_set]) ?_
    rintro ⟨value, value'⟩ he
    obtain ⟨index, he⟩ := List.mem_iff_getElem?.mp he
    obtain ⟨hv, hv'⟩ := List.getElem?_zip_eq_some.mp he
    by_cases hi : position = index
    · subst hi
      rw [List.getElem?_set_self (lt_length_padTo position items), Option.some.injEq] at hv hv'
      exact hv ▸ hv' ▸ h _
    · rw [List.getElem?_set_ne hi] at hv hv'
      exact Option.some.inj (hv.symm.trans hv') ▸ .refl ..

end Json

namespace Location

/-- Two assignments, neither at nor below the place of the other one, can be done in any order in
which the second one still finds its way, but for the order of keys. -/
theorem Opens.alike_assign {location other : Location} {document value value' : Json}
    (hn : ¬ location <+: other) (hn' : ¬ other <+: location)
    (hl : Opens .write location (some document)) (ho : Opens .write other (some document))
    (hlo : Opens .write other (some (location.assign value document).document)) :
    Opens .write location (some (other.assign value' document).document) ∧
    ∀ path, Alike ∅ path (other.assign value' (location.assign value document).document).document
      (location.assign value (other.assign value' document).document).document := by
  induction location generalizing other document with
  | nil => exact absurd List.nil_prefix hn
  | cons step rest ih =>
    rcases other with _ | ⟨first, others⟩
    · exact absurd List.nil_prefix hn'
    obtain ⟨slot, hs, hr, -, ha⟩ := hl.cons_assign value
    obtain ⟨slot', hs', hr', -, ha'⟩ := ho.cons_assign value'
    rw [ha, Slot.fill] at hlo ⊢
    rw [ha', Slot.fill]
    obtain ⟨hb, hlo⟩ := opens_write_cons.mp hlo
    by_cases he : step = first
    · -- both go into one slot, whatever it held before
      subst he
      obtain rfl := Option.some.inj (hs.symm.trans hs')
      rw [child?_around hs, Option.getD_some] at hlo
      obtain ⟨hopen, halike⟩ := ih (fun hp => hn (List.cons_prefix_cons.mpr ⟨rfl, hp⟩))
        (fun hp => hn' (List.cons_prefix_cons.mpr ⟨rfl, hp⟩)) hr hr' hlo
      refine ⟨opens_write_cons.mpr ⟨admits_around hs _, ?_⟩, ?_⟩
      · rwa [child?_around hs, Option.getD_some]
      · rw [assign_cons value' (slot?_around hs _), assign_cons value (slot?_around hs _)]
        exact alike_around hs halike
    · obtain ⟨hopen, around, around', hq, hp, halike⟩ := slots_apart he hs hs'
        (opens_write_cons.mp hl).1 (assign value rest slot.child).document
        (assign value' others slot'.child).document hb
      refine ⟨opens_write_cons.mpr ⟨hopen, ?_⟩, ?_⟩
      · obtain ⟨_, hp', hc⟩ := hopen.exists_slot
        obtain rfl := Option.some.inj (hp.symm.trans hp')
        rwa [← hc]
      · rw [assign_cons value' hq, assign_cons value hp]
        exact halike

end Location

/-- Writes through concrete paths, neither of which begins with the other, can be done in any order:
where the second one succeeds after the first one and also alone, the first one succeeds after it,
and the document comes out the same but for the order of keys. -/
theorem concrete_writes_commute {path other : Path} (hp : path.Concrete) (ho : other.Concrete)
    (hn : ¬ path <+: other) (hn' : ¬ other <+: path)
    {document value value' first result second : Json} {n m k : Nat}
    (hf : path.write value document = ⟨first, .ok n⟩)
    (hr : other.write value' first = ⟨result, .ok m⟩)
    (hs : other.write value' document = ⟨second, .ok k⟩) :
    ∃ swapped, path.write value second = ⟨swapped, .ok 1⟩ ∧ Alike ∅ "" result swapped ∧
      (document.WellFormed → value.WellFormed → value'.WellFormed →
        result.sort ∅ = swapped.sort ∅) := by
  obtain ⟨location, rfl⟩ := hp.exists_location
  obtain ⟨target, rfl⟩ := ho.exists_location
  obtain ⟨hd, hne, hl, -, rfl⟩ := write_path_eq_ok_iff.mp hf
  obtain ⟨-, -, hlt, -, rfl⟩ := write_path_eq_ok_iff.mp hr
  obtain ⟨-, hne', ht, -, rfl⟩ := write_path_eq_ok_iff.mp hs
  have prefix_of {front whole : Location} (h : front <+: whole) : front.path <+: whole.path :=
    h.map Step.segment
  obtain ⟨hopen, halike⟩ := hl.alike_assign (fun h => hn (prefix_of h)) (fun h => hn' (prefix_of h))
    ht hlt
  refine ⟨_, write_path_eq_ok_iff.mpr ⟨ht.kind_assign_ne_null hne' value', hne, hopen, rfl, rfl⟩,
    halike "", fun hd hv hv' => ?_⟩
  apply (halike "").sortAt_eq
  · exact hlt.wellFormed_assign (hl.wellFormed_assign hd hv) hv'
  · exact hopen.wellFormed_assign (ht.wellFormed_assign hd hv') hv

theorem concrete_writes_commute_padding :
    Path.write [.field "a", .index 1, .field "b"] .null (.object [("a", .null)]) =
      ⟨.object [("a", .list [.null, .object [("b", .null)]])], .ok 1⟩ ∧
    Path.write [.field "a", .index 1, .field "c"] (.bool true)
      (.object [("a", .list [.null, .object [("b", .null)]])]) =
      ⟨.object [("a", .list [.null, .object [("b", .null), ("c", .bool true)]])], .ok 1⟩ ∧
    Path.write [.field "a", .index 1, .field "c"] (.bool true) (.object [("a", .null)]) =
      ⟨.object [("a", .list [.null, .object [("c", .bool true)]])], .ok 1⟩ ∧
    Path.write [.field "a", .index 1, .field "b"] .null
      (.object [("a", .list [.null, .object [("c", .bool true)]])]) =
      ⟨.object [("a", .list [.null, .object [("c", .bool true), ("b", .null)]])], .ok 1⟩ ∧
    Alike ∅ "" (.object [("a", .list [.null, .object [("b", .null), ("c", .bool true)]])])
      (.object [("a", .list [.null, .object [("c", .bool true), ("b", .null)]])]) := by
  have hp : Path.Concrete [.field "a", .index 1, .field "b"] := by simp [Path.Concrete]
  have ho : Path.Concrete [.field "a", .index 1, .field "c"] := by simp [Path.Concrete]
  have hf : Path.write [.field "a", .index 1, .field "b"] .null (.object [("a", .null)]) =
      ⟨.object [("a", .list [.null, .object [("b", .null)]])], .ok 1⟩ := rfl
  have hr : Path.write [.field "a", .index 1, .field "c"] (.bool true)
      (.object [("a", .list [.null, .object [("b", .null)]])]) =
      ⟨.object [("a", .list [.null, .object [("b", .null), ("c", .bool true)]])], .ok 1⟩ := rfl
  have hs : Path.write [.field "a", .index 1, .field "c"] (.bool true) (.object [("a", .null)]) =
      ⟨.object [("a", .list [.null, .object [("c", .bool true)]])], .ok 1⟩ := rfl
  obtain ⟨swapped, hw, ha, -⟩ := concrete_writes_commute hp ho (by decide) (by decide) hf hr hs
  have he : Written.mk _ _ = ⟨swapped, .ok 1⟩ := hw
  cases he
  exact ⟨hf, hr, hs, hw, ha⟩

end DocPath
