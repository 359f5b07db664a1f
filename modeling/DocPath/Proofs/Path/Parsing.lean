import DocPath.Proofs.General
import DocPath.Proofs.Path.Grammar

/-! # Reading paths by the grammar

Every reader of the parser accepts what its rule of the grammar derives, and reads what the rule
says: constraints, the insides of groups, groups, tokens and whole texts.
-/

namespace DocPath

namespace PathText

open Grammar

theorem isSeparator_iff {c : Char} : isSeparator c = true ↔ c = '=' ∨ c = ':' := by
  simp [isSeparator]

theorem constraint_sound {predicate : List Char} {c : Constraint}
    (h : constraint predicate = .ok c) (hp : '\x7d' ∉ predicate) :
    Predicate ('\x7b' :: (predicate ++ ['\x7d'])) c := by
  simp only [constraint] at h
  split at h
  · nomatch h
  next separator expected hd =>
    obtain ⟨he, hk, hs⟩ := dropWhile_eq_cons hd
    generalize predicate.takeWhile (!isSeparator ·) = key at h he hk
    subst he
    split at h
    · nomatch h
    next hn =>
      cases h
      simp only [List.mem_append, List.mem_cons, not_or] at hp
      rw [List.append_assoc]
      refine .intro (by simpa using hn) ?_ (isSeparator_iff.mp (by simpa using hs)) hp.2.2
      intro x hx
      have := hk x hx
      simp only [Bool.not_eq_true', isSeparator, Bool.or_eq_false_iff,
        decide_eq_false_iff_not] at this
      exact ⟨this.1, this.2, fun e => hp.1 (e ▸ hx)⟩

theorem constraint_complete {key expected : List Char} {separator : Char} (hn : key ≠ [])
    (hk : ∀ c ∈ key, c ≠ '=' ∧ c ≠ ':' ∧ c ≠ '\x7d') (hs : separator = '=' ∨ separator = ':') :
    constraint (key ++ separator :: expected) =
      .ok ⟨String.ofList key, String.ofList expected⟩ := by
  have hk' : ∀ c ∈ key, (!isSeparator c) = true := by
    intro c hc
    obtain ⟨he, hc, -⟩ := hk c hc
    simp [isSeparator, he, hc]
  have hs' : (!isSeparator separator) = false := by
    simpa using isSeparator_iff.mpr hs
  simp [constraint, dropWhile_append_cons hk' hs', takeWhile_append_cons hk' hs', hn]

theorem constraints_eq (group text : List Char) :
    constraints group text =
      match text.dropWhile isBlank with
      | '\x7b' :: inside =>
        match inside.dropWhile (· ≠ '\x7d') with
        | [] => .error (.unclosedBrace (String.ofList group))
        | _ :: after => do
          let first ← constraint (inside.takeWhile (· ≠ '\x7d'))
          match after.dropWhile isBlank with
          | [] => return [first]
          | ',' :: rest => return first :: (← constraints group rest)
          | c :: _ => throw (.unexpectedBetween c (String.ofList group))
      | _ => .error (.braceExpected (String.ofList group)) := by
  rw [constraints]
  split
  · next h₁ =>
    conv => rhs; rw [h₁]
    split
    · next h₂ => simp only [h₂]
    · next h₂ =>
      simp only [h₂]
      congr 1
      funext first
      split
      · next h₃ => simp only [h₃]
      · next h₃ => simp only [h₃]
      · next h₃ => simp only [h₃]
  · next h₁ =>
    split
    · next h => exact absurd h (h₁ _)
    · rfl

theorem constraints_starts {group text : List Char} {cs : List Constraint}
    (h : constraints group text = .ok cs) :
    ∃ front predicate after c, (∀ x ∈ front, isBlank x = true) ∧ Predicate predicate c ∧
      text = front ++ (predicate ++ after) := by
  rw [constraints_eq] at h
  split at h
  · next inside h₁ =>
    obtain ⟨ht, hb, -⟩ := dropWhile_eq_cons h₁
    split at h
    · nomatch h
    next brace after h₂ =>
    obtain ⟨hi, hp, hc⟩ := dropWhile_eq_cons h₂
    obtain rfl : brace = '\x7d' := by simpa using hc
    obtain ⟨first, hf, -⟩ := bind_eq_ok_iff.mp h
    have hn : '\x7d' ∉ inside.takeWhile (· ≠ '\x7d') := fun hm => by simpa using hp _ hm
    refine ⟨_, _, after, first, hb, constraint_sound hf hn, ?_⟩
    calc text = _ ++ '\x7b' :: inside := ht
      _ = _ ++ '\x7b' :: (_ ++ '\x7d' :: after) := congrArg (_ ++ '\x7b' :: ·) hi
      _ = _ := by simp
  · nomatch h

theorem constraints_predicate {front predicate : List Char} {c : Constraint}
    (hb : ∀ x ∈ front, isBlank x = true) (hp : Predicate predicate c) (group after : List Char) :
    constraints group (front ++ (predicate ++ after)) =
      match after.dropWhile isBlank with
      | [] => .ok [c]
      | ',' :: rest => (constraints group rest).map (c :: ·)
      | c :: _ => .error (.unexpectedBetween c (String.ofList group)) := by
  obtain @⟨key, expected, separator, hn, hk, hs, he⟩ := hp
  have hin : ∀ x ∈ key ++ separator :: expected, decide (x ≠ '\x7d') = true := by
    intro x hx
    rw [decide_eq_true_eq]
    rcases List.mem_append.mp hx with hx | hx
    · exact (hk x hx).2.2
    rcases List.mem_cons.mp hx with rfl | hx
    · rcases hs with rfl | rfl <;> decide
    · exact fun h => he (h ▸ hx)
  have hi : key ++ separator :: (expected ++ ['\x7d']) ++ after =
      (key ++ separator :: expected) ++ '\x7d' :: after := by
    simp
  rw [constraints_eq, List.cons_append, dropWhile_append_cons hb (by decide), hi]
  simp only [dropWhile_append_cons hin (by simp : decide ('\x7d' ≠ '\x7d') = false),
    takeWhile_append_cons hin (by simp : decide ('\x7d' ≠ '\x7d') = false),
    constraint_complete hn hk hs]
  rfl

theorem constraints_eq_ok_iff {group text : List Char} {cs : List Constraint} :
    constraints group text = .ok cs ↔ Filter text cs := by
  constructor
  · intro h
    generalize hl : text.length = n
    induction n using Nat.strongRecOn generalizing text cs with
    | _ n ih =>
    obtain ⟨front, predicate, after, c, hb, hp, rfl⟩ := constraints_starts h
    rw [constraints_predicate hb hp] at h
    split at h
    · next ha =>
      cases h
      exact .last (.intro hb hp (List.dropWhile_eq_nil_iff.mp ha))
    · next rest ha =>
      obtain ⟨ha, hback, -⟩ := dropWhile_eq_cons ha
      obtain ⟨cs, hr, rfl⟩ := map_eq_ok_iff.mp h
      have hf := ih rest.length (by rw [← hl, ha]; simp; omega) hr rfl
      rw [ha, ← List.append_assoc predicate, ← List.append_assoc front]
      exact .more (.intro hb hp hback) hf
    · nomatch h
  · intro h
    induction h with
    | last hp =>
      obtain ⟨hf, hp, hb⟩ := hp
      rw [constraints_predicate hf hp, List.dropWhile_eq_nil_iff.mpr hb]
    | more hp _ ih =>
      obtain ⟨hf, hp, hb⟩ := hp
      rw [List.append_assoc, List.append_assoc, constraints_predicate hf hp,
        dropWhile_append_cons hb (by decide)]
      simp only [ih]
      rfl

theorem head?_dropWhile_filter {text : List Char} {cs : List Constraint} (h : Filter text cs) :
    (text.dropWhile isBlank).head? = some '\x7b' := by
  rcases h with ⟨⟨hb, ⟨_, _, _, _⟩, _⟩⟩ | ⟨⟨hb, ⟨_, _, _, _⟩, _⟩, _⟩
  · rw [List.cons_append, dropWhile_append_cons hb (by decide)]
    rfl
  · rw [List.cons_append, List.append_assoc, List.cons_append, dropWhile_append_cons hb (by decide)]
    rfl

theorem group_eq_ok_iff {inner : List Char} {segment : Segment} :
    group inner = .ok segment ↔ Inside inner segment := by
  constructor
  · intro h
    unfold group at h
    split at h
    · next he =>
      cases h
      obtain rfl := List.isEmpty_iff.mp he
      exact .append
    split at h
    · next he hd =>
      split at h
      · next hl =>
        cases h
        exact .index (by simpa using he) (List.all_eq_true.mp hd) hl
      · nomatch h
    split at h
    · obtain ⟨cs, hc, rfl⟩ := map_eq_ok_iff.mp h
      exact .filter (constraints_eq_ok_iff.mp hc)
    · nomatch h
  · intro h
    cases h with
    | append => rfl
    | index hn hd hl => simp [group, hn, List.all_eq_true.mpr hd, hl]
    | filter hf =>
      have hb := head?_dropWhile_filter hf
      have hn : inner.isEmpty = false := by
        cases inner with
        | nil => nomatch hb
        | cons => rfl
      have hd : inner.all Char.isDigit = false := by
        rw [List.all_eq_false]
        refine ⟨'\x7b', ?_, by decide⟩
        exact (List.dropWhile_sublist isBlank).mem (List.mem_of_head? hb)
      simp [group, hn, hd, hb, constraints_eq_ok_iff.mpr hf, Except.map]

theorem groups_open (token inside : List Char) :
    groups token ('[' :: inside) =
      match closeGroup? 0 inside with
      | none => .error .unclosedBracket
      | some (inner, after) => do
        let first ← group inner
        return first :: (← groups token after) := by
  rw [groups]
  split <;> next h => simp only [h]

theorem groups_eq_ok_iff {token text : List Char} {path : Path} :
    groups token text = .ok path ↔ Groups text path := by
  constructor
  · intro h
    generalize hl : text.length = n
    induction n using Nat.strongRecOn generalizing text path with
    | _ n ih =>
    rcases text with _ | ⟨c, inside⟩
    · rw [groups] at h
      cases h
      exact .nil
    by_cases hc : c = '['
    · subst hc
      rw [groups_open] at h
      split at h
      · cases h
      next inner after hg =>
      obtain ⟨ht, hb⟩ := closeGroup?_eq_some_iff.mp hg
      obtain ⟨first, hf, h⟩ := bind_eq_ok_iff.mp h
      obtain ⟨rest, hr, h⟩ := bind_eq_ok_iff.mp h
      cases h
      have hrest := ih after.length (by rw [← hl, ht]; simp; omega) hr rfl
      have hgroup : Group ('[' :: (inner ++ [']'])) first :=
        .intro (balanced_iff.mpr hb) (group_eq_ok_iff.mp hf)
      simpa [ht] using Groups.cons hgroup hrest
    · rw [groups] at h
      · cases h
      · exact List.cons_ne_nil _ _
      · exact fun _ he => hc (List.cons.inj he).1
  · intro h
    induction h with
    | nil => rw [groups]
    | cons hg _ ih =>
      obtain ⟨hb, hi⟩ := hg
      rw [List.cons_append, List.append_assoc, List.singleton_append, groups_open,
        closeGroup?_eq_some_iff.mpr ⟨rfl, balanced_iff.mp hb⟩]
      simp only [group_eq_ok_iff.mpr hi, ih]
      rfl

theorem not_bracket_of_dotless {front back : List Char} {final : Nat}
    (hd : depth? 0 (front ++ back) = some final) (hn : Dotless 0 (front ++ back))
    (hf : ∀ c ∈ front, c ≠ '[') : ∀ c ∈ front, c ≠ '.' ∧ c ≠ '[' ∧ c ≠ ']' := by
  induction front with
  | nil => nofun
  | cons c front ih =>
    have ho := hf c (List.mem_cons_self ..)
    have hc : c ≠ ']' := by
      rintro rfl
      nomatch hd
    obtain ⟨hdot, hn⟩ := hn
    rw [depthAfter_of_climb? (climb?_of_ne ho hc 0)] at hn
    rw [List.cons_append, depth?_cons_of_ne ho hc] at hd
    intro x hx
    rcases List.mem_cons.mp hx with rfl | hx
    · exact ⟨fun he => hdot ⟨he, rfl⟩, ho, hc⟩
    · exact ih hd hn (fun y hy => hf y (List.mem_cons_of_mem _ hy)) x hx

theorem takeWhile_groups {text : List Char} {path : Path} (h : Groups text path) :
    text.takeWhile (· ≠ '[') = [] ∧ text.dropWhile (· ≠ '[') = text := by
  rcases h.head with rfl | ⟨rest, rfl⟩ <;> simp

theorem token_eq_ok_iff {text : List Char} {path : Path} (hd : depth? 0 text = some 0)
    (hn : Dotless 0 text) : token text = .ok path ↔ Token text path := by
  constructor
  · intro h
    unfold token at h
    split at h
    · nomatch h
    next he =>
    have hs : text.takeWhile (· ≠ '[') ++ text.dropWhile (· ≠ '[') = text :=
      List.takeWhile_append_dropWhile
    have hf : ∀ c ∈ text.takeWhile (· ≠ '['), c ≠ '[' := fun c hc => by
      simpa using List.mem_takeWhile_imp hc
    generalize text.takeWhile (· ≠ '[') = name at h hs hf
    generalize text.dropWhile (· ≠ '[') = rest at h hs
    rw [← hs] at hd hn
    simp only at h
    split at h
    · next hname =>
      obtain rfl := List.isEmpty_iff.mp hname
      obtain rfl : rest = text := hs
      exact .groups (by simpa using he) (groups_eq_ok_iff.mp h)
    · next hname =>
      obtain ⟨path, hg, rfl⟩ := map_eq_ok_iff.mp h
      rw [← hs]
      exact .field (by simpa using hname) (not_bracket_of_dotless hd hn hf)
        (groups_eq_ok_iff.mp hg)
  · intro h
    cases h with
    | groups hne hg =>
      obtain ⟨ht, hr⟩ := takeWhile_groups hg
      simp only [token, ht, hr, groups_eq_ok_iff.mpr hg]
      simp [hne]
    | field hne hf hg =>
      obtain ⟨ht, hr⟩ := takeWhile_groups hg
      have hf : ∀ c ∈ _, decide (c ≠ '[') = true := fun c hc => by simpa using (hf c hc).2.1
      simp only [token, List.takeWhile_append_of_pos hf, List.dropWhile_append_of_pos hf, ht, hr,
        groups_eq_ok_iff.mpr hg]
      simp [hne, Except.map]

theorem derives_of_mapM_token {depth : Nat} {text : List Char} {tokens : List (List Char)}
    {paths : List Path} (hj : Joined depth text tokens) (h0 : depth = 0)
    (hd : depth? 0 text = some 0) (h : tokens.mapM token = .ok paths) :
    Derives text paths.flatten := by
  induction hj generalizing paths with
  | last hn =>
    subst h0
    rw [List.mapM_cons] at h
    obtain ⟨path, ht, h⟩ := bind_eq_ok_iff.mp h
    cases h
    simpa using Derives.token ((token_eq_ok_iff hd hn).mp ht)
  | more hn hz _ ih =>
    subst h0
    rw [depth?_append] at hd
    obtain ⟨final, hf, hd⟩ := Option.bind_eq_some_iff.mp hd
    obtain rfl : final = 0 := by rw [← foldl_depthAfter hf, hz]
    rw [depth?_cons_of_ne (by decide) (by decide)] at hd
    rw [List.mapM_cons] at h
    obtain ⟨path, ht, h⟩ := bind_eq_ok_iff.mp h
    obtain ⟨more, hr, h⟩ := bind_eq_ok_iff.mp h
    cases h
    exact .dot ((token_eq_ok_iff hf hn).mp ht) (ih rfl hd hr)

theorem mapM_token_of_derives {text : List Char} {path : Path} (h : Derives text path) :
    ∃ paths, (tokens text).mapM token = .ok paths ∧ paths.flatten = path := by
  induction h with
  | token ht =>
    refine ⟨[_], ?_, List.flatten_singleton⟩
    rw [tokens, tokensAt_of_dotless ht.dotless, List.mapM_cons,
      (token_eq_ok_iff ht.depth? ht.dotless).mpr ht]
    rfl
  | dot ht _ ih =>
    obtain ⟨paths, hm, rfl⟩ := ih
    refine ⟨_ :: paths, ?_, List.flatten_cons⟩
    rw [tokens, tokensAt_dot ht.dotless (foldl_depthAfter ht.depth?), List.mapM_cons,
      (token_eq_ok_iff ht.depth? ht.dotless).mpr ht]
    change (tokens _).mapM token >>= _ = _
    rw [hm]
    rfl

theorem read_eq_ok_iff {text : List Char} {path : Path} :
    read text = .ok path ↔ Derives text path := by
  unfold read
  constructor
  · intro h
    obtain ⟨_, hb, h⟩ := bind_eq_ok_iff.mp h
    obtain ⟨paths, hm, h⟩ := bind_eq_ok_iff.mp h
    cases h
    exact derives_of_mapM_token (joined_tokensAt 0 text) rfl
      (balanced_iff.mp (checkBrackets_eq_ok_iff.mp hb)) hm
  · intro h
    obtain ⟨paths, hm, rfl⟩ := mapM_token_of_derives h
    rw [checkBrackets_eq_ok_iff.mpr (balanced_iff.mpr h.depth?)]
    change (tokens text).mapM token >>= _ = _
    rw [hm]
    rfl

end PathText

open Grammar

/-- The parser accepts the texts of the grammar and gives the path that they write. -/
theorem Path.parse_eq_ok_iff {text : String} {path : Path} :
    Path.parse text = .ok path ↔ Derives text.toList path := by
  rw [← PathText.read_eq_ok_iff, Path.parse]
  split
  · next he =>
    obtain rfl := String.isEmpty_iff.mp he
    exact iff_of_false nofun nofun
  · rcases PathText.read text.toList with fault | p <;> simp [Except.mapError]

/-- No text writes two paths. -/
theorem Grammar.Derives.unique {text : List Char} {path other : Path} (h : Derives text path)
    (h' : Derives text other) : path = other := by
  rw [← PathText.read_eq_ok_iff] at h h'
  rw [h] at h'
  exact Except.ok.inj h'

theorem Path.parse_error_cases {text : String} {error : PathError}
    (h : Path.parse text = .error error) :
    text = "" ∧ error = .missing .path ∨ text ≠ "" ∧ ∃ fault, error = .malformed text fault := by
  unfold Path.parse at h
  split at h
  · next he =>
    cases h
    exact .inl ⟨String.isEmpty_iff.mp he, rfl⟩
  · next he =>
    refine .inr ⟨fun h => he (String.isEmpty_iff.mpr h), ?_⟩
    cases hr : PathText.read text.toList with
    | error fault =>
      rw [hr] at h
      cases h
      exact ⟨fault, rfl⟩
    | ok path =>
      rw [hr] at h
      nomatch h

/-- A text is missing, or the grammar derives one path from it and that is the one it is read as,
or it is malformed. -/
theorem parse_iff_derives (text : String) :
    (Path.parse text = .error (.missing .path) ↔ text = "") ∧
    (∀ path, Path.parse text = .ok path ↔ Derives text.toList path) ∧
    ((∃ fault, Path.parse text = .error (.malformed text fault)) ↔
      text ≠ "" ∧ ¬ ∃ path, Derives text.toList path) ∧
    ∀ path other, Derives text.toList path → Derives text.toList other → path = other := by
  have hm : text = "" → Path.parse text = .error (.missing .path) := by
    rintro rfl
    rfl
  refine ⟨⟨fun h => ?_, hm⟩, fun path => Path.parse_eq_ok_iff, ⟨?_, ?_⟩,
    fun path other h h' => h.unique h'⟩
  · rcases Path.parse_error_cases h with ⟨ht, -⟩ | ⟨-, fault, he⟩
    · exact ht
    · nomatch he
  · rintro ⟨fault, h⟩
    refine ⟨fun ht => ?_, ?_⟩
    · rw [hm ht] at h
      nomatch h
    · rintro ⟨path, hd⟩
      rw [Path.parse_eq_ok_iff.mpr hd] at h
      nomatch h
  · rintro ⟨ht, hd⟩
    cases h : Path.parse text with
    | ok path => exact absurd ⟨path, Path.parse_eq_ok_iff.mp h⟩ hd
    | error error =>
      rcases Path.parse_error_cases h with ⟨he, -⟩ | ⟨-, fault, rfl⟩
      · exact absurd he ht
      · exact ⟨fault, rfl⟩

end DocPath
