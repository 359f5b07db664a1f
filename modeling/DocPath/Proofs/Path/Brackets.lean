import DocPath.Path.Parser

/-! # Balanced brackets

A text is balanced when no prefix of it closes more brackets than it opens, and the whole closes
all that it opens. Counting the depth character by character decides this. The inside of a group is
balanced, and the dots between tokens are those at depth zero.
-/

namespace DocPath

/-- No prefix closes more brackets than it opens, and the whole closes all. -/
def Balanced (text : List Char) : Prop :=
  (∀ front, front <+: text → front.count ']' ≤ front.count '[') ∧ text.count '[' = text.count ']'

namespace PathText

def climb? (depth : Nat) (c : Char) : Option Nat :=
  if c = '[' then some (depth + 1)
  else if c = ']' then
    match depth with
    | 0 => none
    | depth + 1 => some depth
  else some depth

def depth? (depth : Nat) (text : List Char) : Option Nat :=
  text.foldlM climb? depth

@[simp] theorem depth?_nil (depth : Nat) : depth? depth [] = some depth := rfl

theorem depth?_cons (depth : Nat) (c : Char) (rest : List Char) :
    depth? depth (c :: rest) = (climb? depth c).bind (depth? · rest) := rfl

theorem depth?_append (depth : Nat) (front back : List Char) :
    depth? depth (front ++ back) = (depth? depth front).bind (depth? · back) := by
  simp only [depth?, List.foldlM_append]
  rfl

@[simp] theorem depth?_open (depth : Nat) (rest : List Char) :
    depth? depth ('[' :: rest) = depth? (depth + 1) rest := rfl

@[simp] theorem depth?_close (depth : Nat) (rest : List Char) :
    depth? (depth + 1) (']' :: rest) = depth? depth rest := rfl

@[simp] theorem depth?_close_zero (rest : List Char) : depth? 0 (']' :: rest) = none := rfl

theorem climb?_of_ne {c : Char} (ho : c ≠ '[') (hc : c ≠ ']') (depth : Nat) :
    climb? depth c = some depth := by
  simp [climb?, ho, hc]

theorem depth?_cons_of_ne {c : Char} (ho : c ≠ '[') (hc : c ≠ ']') (depth : Nat)
    (rest : List Char) : depth? depth (c :: rest) = depth? depth rest := by
  rw [depth?_cons, climb?_of_ne ho hc]
  rfl

theorem climb?_succ {depth next : Nat} {c : Char} (h : climb? depth c = some next) :
    climb? (depth + 1) c = some (next + 1) := by
  by_cases ho : c = '['
  · subst ho
    obtain rfl := Option.some.inj h
    rfl
  by_cases hc : c = ']'
  · subst hc
    cases depth with
    | zero => nomatch h
    | succ depth =>
      obtain rfl := Option.some.inj h
      rfl
  rw [climb?_of_ne ho hc] at h ⊢
  obtain rfl := Option.some.inj h
  rfl

theorem depth?_succ {depth final : Nat} {text : List Char} (h : depth? depth text = some final) :
    depth? (depth + 1) text = some (final + 1) := by
  induction text generalizing depth with
  | nil =>
    obtain rfl := Option.some.inj h
    rfl
  | cons c rest ih =>
    rw [depth?_cons] at h ⊢
    obtain ⟨next, hc, h⟩ := Option.bind_eq_some_iff.mp h
    rw [climb?_succ hc]
    exact ih h

theorem forall_prefix_cons {p : List Char → Prop} {c : Char} {rest : List Char} :
    (∀ front, front <+: c :: rest → p front) ↔ p [] ∧ ∀ front, front <+: rest → p (c :: front) := by
  constructor
  · exact fun h => ⟨h [] List.nil_prefix, fun front hf => h _ (List.cons_prefix_cons.mpr ⟨rfl, hf⟩)⟩
  · rintro ⟨hn, hc⟩ front hf
    rcases List.prefix_cons_iff.mp hf with rfl | ⟨tail, rfl, ht⟩
    · exact hn
    · exact hc tail ht

/-- Counting character by character is counting brackets on every prefix. -/
theorem depth?_eq_some_iff {depth final : Nat} {text : List Char} :
    depth? depth text = some final ↔
      (∀ front, front <+: text → front.count ']' ≤ depth + front.count '[') ∧
        depth + text.count '[' = final + text.count ']' := by
  induction text generalizing depth with
  | nil => simp
  | cons c rest ih =>
    rw [forall_prefix_cons]
    by_cases ho : c = '['
    · subst ho
      simp [ih, Nat.add_right_comm, Nat.add_assoc]
    by_cases hc : c = ']'
    · subst hc
      cases depth with
      | zero =>
        refine iff_of_false (by simp) ?_
        rintro ⟨⟨-, hp⟩, -⟩
        exact absurd (hp [] List.nil_prefix) (by simp)
      | succ depth =>
        simp only [depth?_close, ih, List.count_nil, Nat.zero_le, true_and, List.count_cons_self,
          List.count_cons_of_ne ho]
        exact and_congr (forall₂_congr fun _ _ => by omega) (by omega)
    simp [depth?_cons_of_ne ho hc, ih, ho, hc]

theorem balanced_iff {text : List Char} : Balanced text ↔ depth? 0 text = some 0 := by
  simp [Balanced, depth?_eq_some_iff]

instance : DecidablePred Balanced := fun _ => decidable_of_iff' _ balanced_iff

theorem toOption_bracketDepth (offset depth : Nat) (text : List Char) :
    (bracketDepth offset depth text).toOption = depth? depth text := by
  induction text generalizing offset depth with
  | nil => rfl
  | cons c rest ih =>
    simp only [bracketDepth]
    split
    · next ho =>
      subst ho
      exact ih ..
    split
    · next hc =>
      subst hc
      cases depth with
      | zero => rfl
      | succ depth => exact ih ..
    next ho hc => rw [depth?_cons_of_ne ho hc, ih]

theorem checkBrackets_eq_ok_iff {text : List Char} :
    checkBrackets text = .ok () ↔ Balanced text := by
  rw [balanced_iff, ← toOption_bracketDepth 0, checkBrackets]
  rcases bracketDepth 0 0 text with fault | _ | depth <;> simp [Except.toOption]

theorem climb?_eq_none {depth : Nat} {c : Char} (h : climb? depth c = none) :
    depth = 0 ∧ c = ']' := by
  by_cases ho : c = '['
  · subst ho
    nomatch h
  by_cases hc : c = ']'
  · subst hc
    cases depth with
    | zero => exact ⟨rfl, rfl⟩
    | succ depth => nomatch h
  rw [climb?_of_ne ho hc] at h
  nomatch h

theorem closeGroup?_cons {depth next : Nat} {c : Char} (h : climb? depth c = some next)
    (rest : List Char) :
    closeGroup? depth (c :: rest) = (closeGroup? next rest).map fun p => (c :: p.1, p.2) := by
  by_cases ho : c = '['
  · subst ho
    obtain rfl := Option.some.inj h
    rfl
  by_cases hc : c = ']'
  · subst hc
    cases depth with
    | zero => nomatch h
    | succ depth =>
      obtain rfl := Option.some.inj h
      rfl
  rw [climb?_of_ne ho hc] at h
  obtain rfl := Option.some.inj h
  simp [closeGroup?, ho, hc]

/-- A group ends at the bracket that closes it: its inside is balanced. -/
theorem closeGroup?_eq_some_iff {depth : Nat} {text inner after : List Char} :
    closeGroup? depth text = some (inner, after) ↔
      text = inner ++ ']' :: after ∧ depth? depth inner = some 0 := by
  constructor
  · intro h
    refine ⟨closeGroup?_eq_append h, ?_⟩
    induction text generalizing depth inner with
    | nil => nomatch h
    | cons c rest ih =>
      cases hc : climb? depth c with
      | none =>
        obtain ⟨rfl, rfl⟩ := climb?_eq_none hc
        cases h
        rfl
      | some next =>
        rw [closeGroup?_cons hc] at h
        obtain ⟨p, hp, he⟩ := Option.map_eq_some_iff.mp h
        cases he
        rw [depth?_cons, hc]
        exact ih hp
  · rintro ⟨rfl, h⟩
    induction inner generalizing depth with
    | nil =>
      obtain rfl := Option.some.inj h
      rfl
    | cons c inner ih =>
      rw [depth?_cons] at h
      obtain ⟨next, hc, hn⟩ := Option.bind_eq_some_iff.mp h
      rw [List.cons_append, closeGroup?_cons hc, ih hn]
      rfl

theorem depthAfter_of_climb? {depth next : Nat} {c : Char} (h : climb? depth c = some next) :
    depthAfter depth c = next := by
  unfold climb? at h
  unfold depthAfter
  split at h
  · next ho => simpa [ho] using h
  split at h
  · next ho hc =>
    cases depth with
    | zero => nomatch h
    | succ depth => simpa [hc] using h
  next ho hc => simpa [ho, hc] using h

/-- No dot of a text stands outside of brackets. -/
def Dotless (depth : Nat) : List Char → Prop
  | [] => True
  | c :: rest => ¬ (c = '.' ∧ depth = 0) ∧ Dotless (depthAfter depth c) rest

theorem Dotless.append {depth next : Nat} {front back : List Char} (h : Dotless depth front)
    (hd : depth? depth front = some next) (hb : Dotless next back) :
    Dotless depth (front ++ back) := by
  induction front generalizing depth with
  | nil =>
    obtain rfl := Option.some.inj hd
    exact hb
  | cons c front ih =>
    rw [depth?_cons] at hd
    obtain ⟨after, hc, hd⟩ := Option.bind_eq_some_iff.mp hd
    obtain ⟨hn, h⟩ := h
    rw [depthAfter_of_climb? hc] at h
    exact ⟨hn, by rw [depthAfter_of_climb? hc]; exact ih h hd⟩

theorem Dotless.of_append {depth next : Nat} {front back : List Char}
    (h : Dotless depth (front ++ back)) (hd : depth? depth front = some next) :
    Dotless next back := by
  induction front generalizing depth with
  | nil =>
    obtain rfl := Option.some.inj hd
    exact h
  | cons c front ih =>
    rw [depth?_cons] at hd
    obtain ⟨after, hc, hd⟩ := Option.bind_eq_some_iff.mp hd
    obtain ⟨-, h⟩ := h
    rw [depthAfter_of_climb? hc] at h
    exact ih h hd

theorem Dotless.of_depth? {depth final : Nat} {text : List Char}
    (h : depth? depth text = some final) : Dotless (depth + 1) text := by
  induction text generalizing depth with
  | nil => trivial
  | cons c rest ih =>
    rw [depth?_cons] at h
    obtain ⟨next, hc, h⟩ := Option.bind_eq_some_iff.mp h
    refine ⟨by simp, ?_⟩
    rw [depthAfter_of_climb? (climb?_succ hc)]
    exact ih h

theorem depth?_group {inner : List Char} (h : Balanced inner) :
    depth? 0 ('[' :: (inner ++ [']'])) = some 0 := by
  rw [depth?_open, depth?_append, depth?_succ (balanced_iff.mp h)]
  rfl

theorem Dotless.group {inner : List Char} (h : Balanced inner) :
    Dotless 0 ('[' :: (inner ++ [']'])) := by
  have hd := balanced_iff.mp h
  exact ⟨by decide, .append (.of_depth? hd) (depth?_succ hd) ⟨by decide, trivial⟩⟩

theorem depth?_field {name : List Char} (h : ∀ c ∈ name, c ≠ '.' ∧ c ≠ '[' ∧ c ≠ ']') :
    depth? 0 name = some 0 := by
  induction name with
  | nil => rfl
  | cons c name ih =>
    obtain ⟨-, ho, hc⟩ := h c (List.mem_cons_self ..)
    rw [depth?_cons_of_ne ho hc]
    exact ih fun x hx => h x (List.mem_cons_of_mem _ hx)

theorem Dotless.field {name : List Char} (h : ∀ c ∈ name, c ≠ '.' ∧ c ≠ '[' ∧ c ≠ ']') :
    Dotless 0 name := by
  induction name with
  | nil => trivial
  | cons c name ih =>
    obtain ⟨hd, ho, hc⟩ := h c (List.mem_cons_self ..)
    refine ⟨fun he => hd he.1, ?_⟩
    rw [depthAfter_of_climb? (climb?_of_ne ho hc 0)]
    exact ih fun x hx => h x (List.mem_cons_of_mem _ hx)

/-- A text of tokens with dots between them, starting at a depth. -/
inductive Joined : Nat → List Char → List (List Char) → Prop where
  | last {depth : Nat} {token : List Char} : Dotless depth token → Joined depth token [token]
  | more {depth : Nat} {token rest : List Char} {tokens : List (List Char)} :
      Dotless depth token → token.foldl depthAfter depth = 0 → Joined 0 rest tokens →
        Joined depth (token ++ '.' :: rest) (token :: tokens)

theorem Joined.cons {depth : Nat} {c : Char} {text token : List Char} {tokens : List (List Char)}
    (hc : ¬ (c = '.' ∧ depth = 0)) (h : Joined (depthAfter depth c) text (token :: tokens)) :
    Joined depth (c :: text) ((c :: token) :: tokens) := by
  cases h with
  | last hd => exact .last ⟨hc, hd⟩
  | more hd h0 h => exact .more (show Dotless depth (c :: token) from ⟨hc, hd⟩) h0 h

theorem joined_tokensAt (depth : Nat) (text : List Char) :
    Joined depth text (tokensAt depth text) := by
  induction text generalizing depth with
  | nil => exact .last trivial
  | cons c rest ih =>
    simp only [tokensAt]
    split
    · next h =>
      obtain ⟨rfl, rfl⟩ := h
      exact .more (show Dotless 0 [] from trivial) rfl (ih 0)
    · next h =>
      specialize ih (depthAfter depth c)
      split
      · next hn =>
        rw [hn] at ih
        nomatch ih
      · next token tokens ht =>
        rw [ht] at ih
        exact ih.cons h

theorem tokensAt_of_dotless {depth : Nat} {token : List Char} (h : Dotless depth token) :
    tokensAt depth token = [token] := by
  induction token generalizing depth with
  | nil => rfl
  | cons c token ih => simp [tokensAt, h.1, ih h.2]

theorem tokensAt_dot {depth : Nat} {token : List Char} (h : Dotless depth token)
    (h0 : token.foldl depthAfter depth = 0) (rest : List Char) :
    tokensAt depth (token ++ '.' :: rest) = token :: tokensAt 0 rest := by
  induction token generalizing depth with
  | nil =>
    obtain rfl : depth = 0 := h0
    simp [tokensAt]
  | cons c token ih => simp [tokensAt, h.1, ih h.2 h0]

theorem foldl_depthAfter {depth final : Nat} {text : List Char}
    (h : depth? depth text = some final) : text.foldl depthAfter depth = final := by
  induction text generalizing depth with
  | nil => exact Option.some.inj h
  | cons c rest ih =>
    rw [depth?_cons] at h
    obtain ⟨next, hc, h⟩ := Option.bind_eq_some_iff.mp h
    rw [List.foldl_cons, depthAfter_of_climb? hc, ih h]

end PathText

end DocPath
