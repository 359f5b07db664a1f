import DocPath.Proofs.Places.Planned
import DocPath.Proofs.Write.Single

/-! # What outlives a run of writes

Writes may follow each other with arbitrary paths and values, and some of them may fail. What is at
a location is lost only to a write at that location or above it. Everything else but null stays:
scalars as they are, objects with their keys in order in front of new ones, and lists with no
element less.
-/

namespace DocPath

open Location

inductive WriteCall where
  | ofPath (path : Path) (value : Json)
  | ofText (text : String) (value : Json)

namespace WriteCall

def run : WriteCall → Json → Written
  | .ofPath path value, document => path.write value document
  | .ofText text value, document => document.write text value

def planned : WriteCall → Json → Except PathError (List Location)
  | .ofPath path _, document => path.locations .write document
  | .ofText text _, document => do (← Path.parse text).locations .write document

/-- The locations that a call writes; a call that fails writes none. -/
def written (call : WriteCall) (document : Json) : List Location :=
  match (call.run document).outcome, call.planned document with
  | .ok _, .ok locations => locations
  | _, _ => []

def runAll (calls : List WriteCall) (document : Json) : Json :=
  calls.foldl (fun document call => (call.run document).document) document

/-- The locations that calls in turn write, each call on the document that the ones before leave. -/
def writtenAlong : List WriteCall → Json → List Location
  | [], _ => []
  | call :: calls, document =>
    call.written document ++ writtenAlong calls (call.run document).document

end WriteCall

namespace Json

/-- A value to which nothing is added but keys at the end of an object, or elements to a list. -/
inductive GrowsTo : Json → Json → Prop where
  | scalar {value : Json} : value.isScalar = true → GrowsTo value value
  | object {members others : Members} :
      members.keys <+: others.keys → GrowsTo (.object members) (.object others)
  | list {items others : List Json} :
      items.length ≤ others.length → GrowsTo (.list items) (.list others)

namespace GrowsTo

variable {value other third : Json}

theorem refl (value : Json) : GrowsTo value value := by
  cases value with
  | object members => exact .object (List.prefix_refl _)
  | list items => exact .list (Nat.le_refl _)
  | _ => exact .scalar rfl

theorem trans (h : GrowsTo value other) (h' : GrowsTo other third) : GrowsTo value third := by
  cases h with
  | scalar => exact h'
  | object hk =>
    cases h' with
    | scalar hs => nomatch hs
    | object hk' => exact .object (hk.trans hk')
  | list hl =>
    cases h' with
    | scalar hs => nomatch hs
    | list hl' => exact .list (hl.trans hl')

theorem kind_eq (h : GrowsTo value other) : value.kind = other.kind := by
  cases h <;> rfl

end GrowsTo

end Json

section Slot

variable {document : Json} {step : Step}

theorem growsTo_around {slot : Slot} (h : document.slot? step = some slot)
    (hd : document.kind ≠ .null) (child : Json) : document.GrowsTo (slot.around child) := by
  obtain ⟨name, members, rfl, hm, rfl⟩ | ⟨position, items, rfl, hi, rfl⟩ := slot?_eq_some h
  · obtain ⟨rfl, -⟩ | rfl := orEmptyObject_eq hm
    · exact absurd rfl hd
    refine .object ?_
    rw [Members.keys_put]
    split
    · exact List.prefix_refl _
    · exact List.prefix_append _ _
  · obtain ⟨rfl, -⟩ | rfl := orEmptyList_eq hi
    · exact absurd rfl hd
    refine .list ?_
    rw [List.length_set, padTo, List.length_append]
    exact Nat.le_add_right _ _

theorem assign_of_slot?_eq_none (value : Json) (rest : Location) (h : document.slot? step = none)
    (hd : document.kind ≠ .null) : (assign value (step :: rest) document).document = document := by
  cases step with
  | key name =>
    cases document with
    | null => exact absurd rfl hd
    | object members => cases h
    | _ => rfl
  | index position =>
    cases document with
    | null => exact absurd rfl hd
    | list items =>
      simp only [Json.slot?, Json.orEmptyList] at h
      split at h
      · next hp => simp only [assign, Json.orEmptyList, if_pos hp]
      · cases h
    | _ => rfl

end Slot

namespace Location

variable {location : Location} {document found : Json}

theorem kind_ne_null_of_get? (hf : location.get? document = some found)
    (hn : found.kind ≠ .null) : document.kind ≠ .null := by
  cases location with
  | nil =>
    obtain rfl := Option.some.inj hf
    exact hn
  | cons step rest =>
    obtain ⟨child, hc, -⟩ := Option.bind_eq_some_iff.mp hf
    cases document with
    | null => cases step <;> nomatch hc
    | _ => exact nofun

theorem growsTo_assign (value : Json) {written : Location} (hw : ¬ written <+: location)
    (hf : location.get? document = some found) (hn : found.kind ≠ .null) :
    ∃ result, location.get? (written.assign value document).document = some result ∧
      found.GrowsTo result := by
  induction written generalizing location document with
  | nil => exact absurd List.nil_prefix hw
  | cons step rest ih =>
    have hd := kind_ne_null_of_get? hf hn
    cases hs : document.slot? step with
    | none =>
      rw [assign_of_slot?_eq_none value rest hs hd]
      exact ⟨found, hf, .refl found⟩
    | some slot =>
      rw [assign_cons value hs, Slot.fill]
      cases location with
      | nil =>
        obtain rfl := Option.some.inj hf
        exact ⟨_, rfl, growsTo_around hs hd _⟩
      | cons first others =>
        obtain ⟨child, hc, hf⟩ := Option.bind_eq_some_iff.mp hf
        by_cases he : first = step
        · subst he
          have hsc : slot.child = child := by rw [child_of_slot? hs, hc, Option.getD_some]
          rw [get?_cons, child?_around hs, hsc, Option.bind_some]
          exact ih (fun hp => hw (List.cons_prefix_cons.mpr ⟨rfl, hp⟩)) hf
        · rw [get?_cons, child?_around_of_ne hs _ he hc]
          exact ⟨found, hf, .refl found⟩

theorem growsTo_assignAll (value : Json) {locations : List Location}
    (hw : ∀ written ∈ locations, ¬ written <+: location)
    (hf : location.get? document = some found) (hn : found.kind ≠ .null) :
    ∃ result, location.get? (assignAll value locations document).document = some result ∧
      found.GrowsTo result := by
  induction locations generalizing document found with
  | nil => exact ⟨found, hf, .refl found⟩
  | cons written rest ih =>
    obtain ⟨hw, hr⟩ := List.forall_mem_cons.mp hw
    obtain ⟨next, hg, hgrow⟩ := growsTo_assign value hw hf hn
    rw [assignAll_cons]
    rcases ha : written.assign value document with ⟨changed, _ | fault⟩
    · rw [ha] at hg
      obtain ⟨result, hg, hgrow'⟩ := ih hr hg (hgrow.kind_eq ▸ hn)
      exact ⟨result, hg, hgrow.trans hgrow'⟩
    · rw [ha] at hg
      exact ⟨next, hg, hgrow⟩

end Location

namespace Path

variable {path : Path} {document : Json}

/-- The assignments of a write stop at a fault only where the path appends. -/
theorem append_mem_of_fault {value : Json} {locations : List Location}
    (hl : path.locations .write document = .ok locations)
    (hf : (assignAll value locations document).fault ≠ none) : .append ∈ path := by
  by_contra ha
  have hg := (Fits.of_not_mem ha (some document)).agrees_locations value
  rw [hl, Except.toOption] at hg
  generalize path.revise value (some document) = revision at hg
  cases hg with
  | untouched => exact hf rfl
  | revised _ he => exact hf (by rw [he])

/-- A write lets a value grow that is not written, neither there nor above. -/
theorem growsTo_write (value : Json) {location : Location} {found : Json}
    (hf : location.get? document = some found) (hn : found.kind ≠ .null)
    (hw : ∀ n locations, (path.write value document).outcome = .ok n →
      path.locations .write document = .ok locations →
        ∀ written ∈ locations, ¬ written <+: location) :
    ∃ result, location.get? (path.write value document).document = some result ∧
      found.GrowsTo result := by
  have hc := path.write_cases value document
  generalize path.write value document = written at hc hw ⊢
  cases hc with
  | refused => exact ⟨found, hf, .refl found⟩
  | @stopped locations next fault hl ha =>
    have hfault : (assignAll value locations document).fault ≠ none := by
      rw [ha]
      nofun
    -- a write that stops on the way has only planned places where there is nothing yet
    have hnone : ∀ written ∈ locations, ¬ written <+: location := by
      obtain ⟨places, hp, rfl⟩ := locations_eq_ok_iff.mp hl
      rintro _ hm ⟨rest, rfl⟩
      obtain ⟨place, hplace, rfl⟩ := List.mem_map.mp hm
      rw [get?_append, get?_of_mem_places hp hplace,
        value_of_mem_places_append (append_mem_of_fault hl hfault) hp hplace] at hf
      cases hf
    have hg := growsTo_assignAll value hnone hf hn
    rwa [ha] at hg
  | @done locations result _ _ _ hl ha =>
    have hg := growsTo_assignAll value (hw _ locations rfl hl) hf hn
    rwa [ha] at hg

end Path

namespace WriteCall

variable {document found : Json} {location : Location}

theorem run_cases (call : WriteCall) (document : Json) :
    (call.run document).document = document ∧ call.written document = [] ∨
      ∃ (path : Path) (value : Json), call.run document = path.write value document ∧
        call.planned document = path.locations .write document := by
  cases call with
  | ofPath path value => exact .inr ⟨path, value, rfl, rfl⟩
  | ofText text value =>
    cases hp : Path.parse text with
    | error error =>
      have hr : (ofText text value).run document = .failed document error := by
        rw [run, Json.write, hp]
      exact .inl ⟨by rw [hr]; rfl, by rw [written, hr]; rfl⟩
    | ok path => exact .inr ⟨path, value, by rw [run, Json.write, hp], by rw [planned, hp]; rfl⟩

theorem exists_place_of_mem_written {call : WriteCall} {written : Location}
    (hm : written ∈ call.written document) :
    ∃ (path : Path) (places : List Place), path.places .write document = .ok places ∧
      ∃ place ∈ places, place.location = written := by
  obtain ⟨-, hnil⟩ | ⟨path, _, -, hp⟩ := call.run_cases document
  · rw [hnil] at hm
    nomatch hm
  rw [WriteCall.written, hp] at hm
  split at hm
  · next locations _ hl =>
    obtain ⟨places, hplaces, rfl⟩ := Path.locations_eq_ok_iff.mp hl
    exact ⟨path, places, hplaces, List.mem_map.mp hm⟩
  · nomatch hm

theorem growsTo_run (call : WriteCall) (hf : location.get? document = some found)
    (hn : found.kind ≠ .null) (hw : ∀ written ∈ call.written document, ¬ written <+: location) :
    ∃ result, location.get? (call.run document).document = some result ∧
      found.GrowsTo result := by
  obtain ⟨hd, -⟩ | ⟨path, value, hr, hp⟩ := call.run_cases document
  · rw [hd]
    exact ⟨found, hf, .refl found⟩
  · rw [hr]
    refine path.growsTo_write value hf hn fun n locations ho hl => ?_
    have hwritten : call.written document = locations := by
      rw [WriteCall.written, hr, ho, hp, hl]
    rwa [hwritten] at hw

/-- What is not written along a run, neither there nor above, only grows in the run. -/
theorem growsTo_runAll (calls : List WriteCall) (hf : location.get? document = some found)
    (hn : found.kind ≠ .null)
    (hw : ∀ written ∈ writtenAlong calls document, ¬ written <+: location) :
    ∃ result, location.get? (runAll calls document) = some result ∧ found.GrowsTo result := by
  induction calls generalizing document found with
  | nil => exact ⟨found, hf, .refl found⟩
  | cons call calls ih =>
    obtain ⟨hc, hr⟩ := List.forall_mem_append.mp hw
    obtain ⟨next, hg, hgrow⟩ := call.growsTo_run hf hn hc
    obtain ⟨result, hg, hgrow'⟩ := ih hg (hgrow.kind_eq ▸ hn) hr
    exact ⟨result, hg, hgrow.trans hgrow'⟩

end WriteCall

open WriteCall

/-- In a run of calls, succeeding or failing, a value other than null survives where no call that
succeeds writes, neither there nor above: a scalar stays, an object keeps its keys in front and in
order, and a list gets no shorter. No call writes below a scalar other than null. -/
theorem unwritten_survives (calls : List WriteCall) {document value : Json} {location : Location}
    (hv : location.get? document = some value) (hn : value.kind ≠ .null)
    (hw : ∀ written ∈ writtenAlong calls document, ¬ written <+: location) :
    (∃ result, location.get? (runAll calls document) = some result ∧ value.GrowsTo result) ∧
    (value.isScalar = true → ∀ call : WriteCall, ∀ written ∈ call.written document,
      location <+: written → written = location) := by
  refine ⟨growsTo_runAll calls hv hn hw, fun hs call written hm hl => ?_⟩
  obtain ⟨path, places, hp, place, hplace, rfl⟩ := exists_place_of_mem_written hm
  exact Path.eq_of_prefix_mem_places hp hplace hv hs hn hl

theorem unwritten_survives_people :
    writtenAlong [.ofPath [.field "a", .field "b", .append] .null, .ofText "" .null,
        .ofPath [.field "a", .field "c", .field "d"] .null,
        .ofPath [.field "a", .field "b", .filter [⟨"s", "x"⟩], .field "t", .index 1] .null]
      (.object [("a", .object [("c", .bool true), ("b", .list [.object [("s", .string "x")]])])]) =
      [[.key "a", .key "b", .index 1], [.key "a", .key "b", .index 0, .key "t", .index 1]] ∧
    ∃ result, Location.get? [.key "a"] (runAll [
        .ofPath [.field "a", .field "b", .append] .null, .ofText "" .null,
        .ofPath [.field "a", .field "c", .field "d"] .null,
        .ofPath [.field "a", .field "b", .filter [⟨"s", "x"⟩], .field "t", .index 1] .null]
      (.object [("a", .object [("c", .bool true), ("b", .list [.object [("s", .string "x")]])])])) =
        some result ∧
      Json.GrowsTo (.object [("c", .bool true), ("b", .list [.object [("s", .string "x")]])])
        result := by
  have hw : writtenAlong [.ofPath [.field "a", .field "b", .append] .null, .ofText "" .null,
        .ofPath [.field "a", .field "c", .field "d"] .null,
        .ofPath [.field "a", .field "b", .filter [⟨"s", "x"⟩], .field "t", .index 1] .null]
      (.object [("a", .object [("c", .bool true), ("b", .list [.object [("s", .string "x")]])])]) =
      [[.key "a", .key "b", .index 1], [.key "a", .key "b", .index 0, .key "t", .index 1]] := rfl
  refine ⟨hw, (unwritten_survives _ rfl (by decide) ?_).1⟩
  rw [hw]
  decide

end DocPath
