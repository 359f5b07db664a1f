import DocPath.Proofs.Path.Rendering
import Mathlib.Data.List.Basic

/-! # Locations as paths

A location is a path of fields and positions only, with the same text. So the text of a location
that can be written as a path is read back as that path, and no other location has the same text.
-/

namespace DocPath

def Step.segment : Step → Segment
  | .key name => .field name
  | .index position => .index position

theorem Step.segment_injective : Function.Injective Step.segment := by
  intro step other h
  cases step <;> cases other <;> cases h <;> rfl

namespace Location

variable {location other : Location}

def path (location : Location) : Path :=
  location.map Step.segment

@[simp] theorem path_cons (step : Step) (rest : Location) :
    path (step :: rest) = step.segment :: path rest := rfl

@[simp] theorem path_append (front back : Location) :
    path (front ++ back) = path front ++ path back :=
  List.map_append

theorem path_injective : Function.Injective path :=
  List.map_injective_iff.mpr Step.segment_injective

theorem path_wellFormed_iff :
    location.path.WellFormed ↔ location ≠ [] ∧ ∀ step ∈ location, step.segment.WellFormed := by
  simp [Path.WellFormed, path]

theorem render_path (location : Location) : location.path.render = location.render := by
  have hc (step : Step) : step.segment.chars = step.chars := by cases step <;> rfl
  have ha (step : Step) : step.segment.charsAfter = step.charsAfter := by cases step <;> rfl
  rw [render, Path.render]
  congr 1
  cases location with
  | nil => rfl
  | cons first rest =>
    rw [path_cons, Path.chars, chars, hc, path, List.flatMap_map]
    simp only [ha]

theorem parse_render (h : location.path.WellFormed) :
    Path.parse location.render = .ok location.path := by
  rw [← render_path]
  exact Path.parse_render h

theorem eq_of_render_eq (h : ∀ step ∈ location, step.segment.WellFormed)
    (ho : ∀ step ∈ other, step.segment.WellFormed) (he : location.render = other.render) :
    location = other := by
  rw [← render_path, ← render_path] at he
  exact path_injective
    (Path.eq_of_render_eq (List.forall_mem_map.mpr h) (List.forall_mem_map.mpr ho) he)

end Location

end DocPath
