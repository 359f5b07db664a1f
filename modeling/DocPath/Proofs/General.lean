import Mathlib.Data.List.Forall2
import Mathlib.Data.List.TakeWhile

/-! # Results and lists

Facts about `Except` and lists that are not about documents. A computation in steps succeeds when
each step does, and fails with the error of the first one that fails.
-/

namespace DocPath

section Except

variable {ε δ α β : Type}

theorem bind_eq_ok_iff {first : Except ε α} {next : α → Except ε β} {b : β} :
    first >>= next = .ok b ↔ ∃ a, first = .ok a ∧ next a = .ok b := by
  constructor
  · intro h
    cases first with
    | error e => nomatch h
    | ok a => exact ⟨a, rfl, h⟩
  · rintro ⟨a, rfl, h⟩
    exact h

theorem bind_eq_error_iff {first : Except ε α} {next : α → Except ε β} {e : ε} :
    first >>= next = .error e ↔ first = .error e ∨ ∃ a, first = .ok a ∧ next a = .error e := by
  cases first with
  | error e' =>
    change Except.error e' = .error e ↔ _
    simp
  | ok a =>
    change next a = .error e ↔ _
    simp

theorem map_eq_ok_iff {f : α → β} {x : Except ε α} {b : β} :
    x.map f = .ok b ↔ ∃ a, x = .ok a ∧ f a = b := by
  cases x <;> simp [Except.map]

theorem map_eq_error_iff {f : α → β} {x : Except ε α} {e : ε} :
    x.map f = .error e ↔ x = .error e := by
  cases x <;> simp [Except.map]

theorem map_mapError (f : α → β) (g : ε → δ) (x : Except ε α) :
    (x.mapError g).map f = (x.map f).mapError g := by
  cases x <;> rfl

theorem toOption_eq_some_iff {x : Except ε α} {a : α} : x.toOption = some a ↔ x = .ok a := by
  cases x <;> simp [Except.toOption]

theorem exists_of_mapM_eq_error {f : α → Except ε β} {as : List α} {e : ε}
    (h : as.mapM f = .error e) : ∃ a ∈ as, f a = .error e := by
  induction as with
  | nil => nomatch h
  | cons a as ih =>
    rw [List.mapM_cons] at h
    obtain h | ⟨b, -, h⟩ := bind_eq_error_iff.mp h
    · exact ⟨a, List.mem_cons_self .., h⟩
    obtain h | ⟨bs, -, h⟩ := bind_eq_error_iff.mp h
    · obtain ⟨a', ha, h⟩ := ih h
      exact ⟨a', List.mem_cons_of_mem _ ha, h⟩
    · nomatch h

theorem mapM_mapError {f : α → Except ε β} {g : α → Except δ β} {e : ε → δ} {as : List α}
    (h : ∀ a ∈ as, g a = (f a).mapError e) : as.mapM g = (as.mapM f).mapError e := by
  induction as with
  | nil => rfl
  | cons a as ih =>
    obtain ⟨ha, has⟩ := List.forall_mem_cons.mp h
    rw [List.mapM_cons, List.mapM_cons, ha, ih has]
    cases f a with
    | error => rfl
    | ok => cases as.mapM f <;> rfl

end Except

section List

variable {α β γ : Type}

theorem dropWhile_eq_cons {p : α → Bool} {as rest : List α} {a : α}
    (h : as.dropWhile p = a :: rest) :
    as = as.takeWhile p ++ a :: rest ∧ (∀ x ∈ as.takeWhile p, p x = true) ∧ p a = false := by
  refine ⟨?_, fun x hx => List.mem_takeWhile_imp hx, ?_⟩
  · rw [← h, List.takeWhile_append_dropWhile]
  · have := List.head?_dropWhile_not p as
    rw [h] at this
    simpa using this

theorem takeWhile_append_cons {p : α → Bool} {front : List α} {a : α}
    (hf : ∀ x ∈ front, p x = true) (ha : p a = false) (rest : List α) :
    (front ++ a :: rest).takeWhile p = front := by
  rw [List.takeWhile_append_of_pos hf, List.takeWhile_cons_of_neg (by simp [ha]), List.append_nil]

theorem dropWhile_append_cons {p : α → Bool} {front : List α} {a : α}
    (hf : ∀ x ∈ front, p x = true) (ha : p a = false) (rest : List α) :
    (front ++ a :: rest).dropWhile p = a :: rest := by
  rw [List.dropWhile_append_of_pos hf, List.dropWhile_cons_of_neg (by simp [ha])]

theorem flatMap_filter (p : α → Bool) (f : α → List β) (as : List α) :
    (as.filter p).flatMap f = as.flatMap fun a => if p a then f a else [] := by
  induction as with
  | nil => rfl
  | cons a as ih =>
    rw [List.filter_cons, List.flatMap_cons, ← ih]
    split <;> rfl

theorem exists_of_mem_zip_map {f : α → β} {as : List α} {e : α × β}
    (h : e ∈ as.zip (as.map f)) : ∃ a ∈ as, e = (a, f a) := by
  rw [← List.map_prod_left_eq_zip] at h
  obtain ⟨a, ha, rfl⟩ := List.mem_map.mp h
  exact ⟨a, ha, rfl⟩

theorem map_eq_map_of_forall_mem_zip {f : α → γ} {g : β → γ} {as : List α} {bs : List β}
    (hl : as.length = bs.length) (h : ∀ e ∈ as.zip bs, f e.1 = g e.2) : as.map f = bs.map g := by
  have hf : List.Forall₂ (fun a b => f a = g b) as bs :=
    List.forall₂_iff_zip.mpr ⟨hl, fun hm => h _ hm⟩
  rwa [← List.forall₂_map_right_iff, ← List.forall₂_map_left_iff, List.forall₂_eq_eq_eq] at hf

/-- Elements that a stable sort does not have to move past each other keep their order. -/
theorem filter_mergeSort {le : α → α → Bool}
    (trans : ∀ a b c, le a b = true → le b c = true → le a c = true)
    (total : ∀ a b, (le a b || le b a) = true) {p : α → Bool} {as : List α}
    (h : (as.filter p).Pairwise fun a b => le a b = true) :
    (as.mergeSort le).filter p = as.filter p := by
  have hs : (as.filter p).Sublist ((as.mergeSort le).filter p) := by
    simpa using (List.sublist_mergeSort trans total h List.filter_sublist).filter p
  have hl := ((List.mergeSort_perm as le).filter p).length_eq
  exact (hs.eq_of_length hl.symm).symm

end List

end DocPath
