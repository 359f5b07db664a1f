import DocPath.Proofs.Path.Rendering

/-! # Faults of brackets

Brackets are checked over a whole text before any token is read: a text that closes more brackets
than it has opened is refused at the first such bracket, and a text that leaves one open is refused
for that. All tokens of any other text are balanced, and so is what is left of a token behind each
of its groups. So every group that is opened there is closed as well, and no token is refused for
its brackets.
-/

namespace DocPath

def Overclosed (text : List Char) : Prop :=
  text.count '[' < text.count ']'

def TextFault.ofBrackets : TextFault → Bool
  | .unmatchedBracket _ | .unclosedBracket => true
  | _ => false

/-- The text is malformed, and the message gives this reason. -/
def Path.RefusedFor (text reason : String) : Prop :=
  ∃ fault, Path.parse text = .error (.malformed text fault) ∧ fault.message = reason

theorem not_overclosed_iff {text : List Char} :
    ¬ Overclosed text ↔ text.count ']' ≤ text.count '[' :=
  Nat.not_lt

theorem balanced_iff_not_overclosed {text : List Char} :
    Balanced text ↔ (∀ front, front <+: text → ¬ Overclosed front) ∧
      ¬ text.count ']' < text.count '[' := by
  simp only [Balanced, not_overclosed_iff]
  refine and_congr_right fun h => ?_
  have := h text (List.prefix_refl text)
  omega

/-- A balanced front ends where the next closing bracket is the first that nothing opens. -/
theorem balanced_iff_overclosed_append {front : List Char} :
    Balanced front ↔ (∀ p, p <+: front → ¬ Overclosed p) ∧ Overclosed (front ++ [']']) := by
  simp only [Balanced, not_overclosed_iff]
  refine and_congr_right fun h => ?_
  have := h front (List.prefix_refl front)
  simp [Overclosed]
  omega

theorem toString_injective : Function.Injective (toString : Nat → String) := by
  intro n m h
  have hd (k : Nat) : digitsValue (toString k).toList = k := by
    rw [show (toString k).toList = Nat.toDigits 10 k from String.toList_ofList,
      digitsValue_toDigits]
  rw [← hd n, h, hd]

theorem take_toList_append {n : Nat} {front : String} (h : n ≤ front.toList.length)
    (back : String) : (front ++ back).toList.take n = front.toList.take n := by
  rw [String.toList_append, List.take_append_of_le_length h]

namespace TextFault

variable {fault : TextFault}

theorem take_message (h : fault.ofBrackets = false) :
    fault.message.toList.take 3 ≠ ['u', 'n', 'm'] ∧
      fault.message.toList.take 3 ≠ ['u', 'n', 'c'] := by
  unfold message
  split
  case h_1 | h_2 => nomatch h
  case h_3 => decide
  all_goals
    simp only [String.append_assoc]
    rw [take_toList_append (by decide)]
    decide

theorem ofBrackets_iff :
    fault.ofBrackets = true ↔
      (∃ offset, fault = .unmatchedBracket offset) ∨ fault = .unclosedBracket := by
  cases fault <;> simp [ofBrackets]

theorem take_message_unmatched (offset : Nat) :
    (unmatchedBracket offset).message.toList.take 3 = ['u', 'n', 'm'] := by
  change ("unmatched `]` at " ++ toString offset).toList.take 3 = _
  rw [take_toList_append (by decide)]
  decide

theorem message_eq_unmatched_iff {offset : Nat} :
    fault.message = "unmatched `]` at " ++ toString offset ↔ fault = .unmatchedBracket offset := by
  refine ⟨fun h => ?_, fun h => h ▸ rfl⟩
  have ht : fault.message.toList.take 3 = ['u', 'n', 'm'] := by
    rw [h]
    exact take_message_unmatched offset
  cases hf : fault.ofBrackets with
  | false => exact absurd ht (take_message hf).1
  | true =>
    obtain ⟨other, rfl⟩ | rfl := ofBrackets_iff.mp hf
    · exact congrArg _ (toString_injective ((String.append_right_inj _).mp h))
    · exact absurd ht (by decide)

theorem message_eq_unclosed_iff : fault.message = "unclosed `[`" ↔ fault = .unclosedBracket := by
  refine ⟨fun h => ?_, fun h => h ▸ rfl⟩
  have ht : fault.message.toList.take 3 = ['u', 'n', 'c'] := by
    rw [h]
    decide
  cases hf : fault.ofBrackets with
  | false => exact absurd ht (take_message hf).2
  | true =>
    obtain ⟨offset, rfl⟩ | rfl := ofBrackets_iff.mp hf
    · rw [take_message_unmatched] at ht
      exact absurd ht (by decide)
    · rfl

end TextFault

namespace PathText

theorem bracketDepth_cons {depth next : Nat} {c : Char} (h : climb? depth c = some next)
    (offset : Nat) (rest : List Char) :
    bracketDepth offset depth (c :: rest) = bracketDepth (offset + c.utf8Size) next rest := by
  by_cases ho : c = '['
  · subst ho
    obtain rfl := Option.some.inj h
    rfl
  by_cases hc : c = ']'
  · subst hc
    cases depth with
    | zero => nomatch h
    | succ depth =>
      obtain rfl := Option.some.inj h
      rfl
  rw [climb?_of_ne ho hc] at h
  obtain rfl := Option.some.inj h
  simp [bracketDepth, ho, hc]

theorem utf8ByteSize_cons (c : Char) (rest : List Char) :
    (String.ofList (c :: rest)).utf8ByteSize =
      c.utf8Size + (String.ofList rest).utf8ByteSize := by
  rw [String.ofList_cons, String.utf8ByteSize_append, String.utf8ByteSize_singleton]

theorem bracketDepth_eq_error_iff {offset depth : Nat} {text : List Char} {fault : TextFault} :
    bracketDepth offset depth text = .error fault ↔
      ∃ front back, text = front ++ ']' :: back ∧ depth? depth front = some 0 ∧
        fault = .unmatchedBracket (offset + (String.ofList front).utf8ByteSize) := by
  induction text generalizing offset depth with
  | nil =>
    refine iff_of_false nofun ?_
    rintro ⟨front, back, h, -⟩
    cases front <;> nomatch h
  | cons c rest ih =>
    cases hc : climb? depth c with
    | none =>
      obtain ⟨rfl, rfl⟩ := climb?_eq_none hc
      constructor
      · intro h
        obtain rfl := Except.error.inj h
        exact ⟨[], rest, rfl, rfl, rfl⟩
      · rintro ⟨front, back, h, hd, rfl⟩
        rcases front with _ | ⟨c, front⟩
        · rfl
        · obtain ⟨rfl, -⟩ := List.cons.inj h
          nomatch hd
    | some next =>
      rw [bracketDepth_cons hc, ih]
      constructor
      · rintro ⟨front, back, rfl, hd, rfl⟩
        refine ⟨c :: front, back, rfl, by rw [depth?_cons, hc]; exact hd, ?_⟩
        rw [utf8ByteSize_cons, Nat.add_assoc]
      · rintro ⟨front, back, h, hd, rfl⟩
        rcases front with _ | ⟨c, front⟩
        · obtain ⟨rfl, -⟩ := List.cons.inj h
          obtain rfl := Option.some.inj hd
          nomatch hc
        · obtain ⟨rfl, rfl⟩ := List.cons.inj h
          rw [depth?_cons, hc] at hd
          refine ⟨front, back, rfl, hd, ?_⟩
          rw [utf8ByteSize_cons, Nat.add_assoc]

theorem checkBrackets_eq_unmatched_iff {text : List Char} {offset : Nat} :
    checkBrackets text = .error (.unmatchedBracket offset) ↔
      ∃ front back, text = front ++ ']' :: back ∧ Balanced front ∧
        offset = (String.ofList front).utf8ByteSize := by
  have h := @bracketDepth_eq_error_iff 0 0 text (.unmatchedBracket offset)
  simp only [Nat.zero_add, ← balanced_iff, TextFault.unmatchedBracket.injEq] at h
  rw [← h, checkBrackets]
  rcases bracketDepth 0 0 text with fault | _ | depth <;> simp

theorem checkBrackets_eq_unclosed_iff {text : List Char} :
    checkBrackets text = .error .unclosedBracket ↔
      (∀ front, front <+: text → ¬ Overclosed front) ∧ text.count ']' < text.count '[' := by
  have hd : checkBrackets text = .error .unclosedBracket ↔
      ∃ depth, depth? 0 text = some (depth + 1) := by
    rw [← toOption_bracketDepth 0, checkBrackets]
    cases h : bracketDepth 0 0 text with
    | error fault =>
      obtain ⟨front, back, -, -, rfl⟩ := bracketDepth_eq_error_iff.mp h
      simp [Except.toOption]
    | ok depth => cases depth <;> simp [Except.toOption]
  simp only [hd, depth?_eq_some_iff, Nat.zero_add, exists_and_left, not_overclosed_iff]
  refine and_congr_right fun _ => ⟨?_, fun h => ?_⟩
  · rintro ⟨depth, h⟩
    omega
  · exact ⟨text.count '[' - text.count ']' - 1, by omega⟩

theorem exists_overclosed_iff {text : List Char} :
    (∃ front, front <+: text ∧ Overclosed front) ↔
      ∃ front back, text = front ++ ']' :: back ∧ Balanced front := by
  constructor
  · rintro ⟨front, hf, ho⟩
    cases h : bracketDepth 0 0 text with
    | error fault =>
      obtain ⟨front, back, he, hd, -⟩ := bracketDepth_eq_error_iff.mp h
      exact ⟨front, back, he, balanced_iff.mpr hd⟩
    | ok depth =>
      have hd : depth? 0 text = some depth := by
        rw [← toOption_bracketDepth 0, h]
        rfl
      have := (depth?_eq_some_iff.mp hd).1 front hf
      exact absurd ho (not_overclosed_iff.mpr (by omega))
  · rintro ⟨front, back, rfl, hb⟩
    refine ⟨front ++ [']'], ?_, (balanced_iff_overclosed_append.mp hb).2⟩
    exact ⟨back, by simp⟩

theorem Joined.balanced {depth : Nat} {text : List Char} {tokens : List (List Char)}
    (hj : Joined depth text tokens) (h0 : depth = 0) (hb : Balanced text) :
    ∀ token ∈ tokens, Balanced token := by
  induction hj with
  | last _ => exact List.forall_mem_singleton.mpr hb
  | more _ hz _ ih =>
    subst h0
    rw [balanced_iff, depth?_append] at hb
    obtain ⟨final, hf, hb⟩ := Option.bind_eq_some_iff.mp hb
    obtain rfl : final = 0 := by rw [← foldl_depthAfter hf, hz]
    rw [depth?_cons_of_ne (by decide) (by decide)] at hb
    exact List.forall_mem_cons.mpr ⟨balanced_iff.mpr hf, ih rfl (balanced_iff.mpr hb)⟩

theorem balanced_of_mem_tokens {text token : List Char} (hb : Balanced text)
    (ht : token ∈ tokens text) : Balanced token :=
  (joined_tokensAt 0 text).balanced rfl hb token ht

theorem balanced_dropWhile {text : List Char} (h : Balanced text) :
    Balanced (text.dropWhile (· ≠ '[')) := by
  induction text with
  | nil => exact h
  | cons c rest ih =>
    by_cases ho : c = '['
    · rwa [List.dropWhile_cons_of_neg (by simp [ho])]
    rw [List.dropWhile_cons_of_pos (by simp [ho])]
    have hc : c ≠ ']' := by
      rintro rfl
      nomatch balanced_iff.mp h
    rw [balanced_iff, depth?_cons_of_ne ho hc, ← balanced_iff] at h
    exact ih h

/-- What is left of a text while its groups are read: at first all of it, and then what stands
behind each group that is read. -/
inductive LeftOfGroups : List Char → List Char → Prop where
  | all (text : List Char) : LeftOfGroups text text
  | behind {inside inner after rest : List Char} {segment : Segment} :
      closeGroup? 0 inside = some (inner, after) → group inner = .ok segment →
        LeftOfGroups after rest → LeftOfGroups ('[' :: inside) rest

theorem LeftOfGroups.balanced {text rest : List Char} (h : LeftOfGroups text rest)
    (hb : Balanced text) : Balanced rest := by
  induction h with
  | all => exact hb
  | behind hc _ _ ih =>
    obtain ⟨rfl, hi⟩ := closeGroup?_eq_some_iff.mp hc
    rw [balanced_iff, depth?_open, depth?_append, depth?_succ hi] at hb
    exact ih (balanced_iff.mpr hb)

theorem exists_closeGroup? {depth : Nat} {inside : List Char}
    (h : depth? (depth + 1) inside = some 0) :
    ∃ inner after, closeGroup? depth inside = some (inner, after) := by
  induction inside generalizing depth with
  | nil => nomatch h
  | cons c rest ih =>
    cases hc : climb? depth c with
    | none =>
      obtain ⟨rfl, rfl⟩ := climb?_eq_none hc
      exact ⟨[], rest, rfl⟩
    | some next =>
      rw [depth?_cons, climb?_succ hc] at h
      obtain ⟨inner, after, hi⟩ := ih h
      exact ⟨c :: inner, after, by rw [closeGroup?_cons hc, hi]; rfl⟩

theorem LeftOfGroups.exists_closeGroup? {token inside : List Char}
    (h : LeftOfGroups (token.dropWhile (· ≠ '[')) ('[' :: inside)) (hb : Balanced token) :
    ∃ inner after, closeGroup? 0 inside = some (inner, after) := by
  have hi := h.balanced (balanced_dropWhile hb)
  rw [balanced_iff, depth?_open] at hi
  exact PathText.exists_closeGroup? hi

section Faults

variable {fault : TextFault}

theorem ofBrackets_constraint {predicate : List Char} (h : constraint predicate = .error fault) :
    fault.ofBrackets = false := by
  simp only [constraint] at h
  split at h
  · cases h
    rfl
  split at h
  · cases h
    rfl
  · cases h

theorem ofBrackets_constraints {group text : List Char}
    (h : constraints group text = .error fault) : fault.ofBrackets = false := by
  generalize hl : text.length = n
  induction n using Nat.strongRecOn generalizing text with
  | _ n ih =>
  rw [constraints_eq] at h
  split at h
  · next inside h₁ =>
    split at h
    · cases h
      rfl
    next after h₂ =>
    obtain hf | ⟨first, -, h⟩ := bind_eq_error_iff.mp h
    · exact ofBrackets_constraint hf
    split at h
    · nomatch h
    · next rest h₃ =>
      have h₁ := length_lt_of_dropWhile h₁
      have h₂ := length_lt_of_dropWhile h₂
      have h₃ := length_lt_of_dropWhile h₃
      obtain hr | ⟨cs, -, h⟩ := bind_eq_error_iff.mp h
      · exact ih rest.length (by omega) hr rfl
      · nomatch h
    · cases h
      rfl
  · cases h
    rfl

theorem ofBrackets_group {inner : List Char} (h : group inner = .error fault) :
    fault.ofBrackets = false := by
  unfold group at h
  split at h
  · nomatch h
  split at h
  · split at h
    · nomatch h
    · cases h
      rfl
  split at h
  · exact ofBrackets_constraints (map_eq_error_iff.mp h)
  · cases h
    rfl

/-- The reading of groups is stopped by a bracket where a group is left that nothing closes. -/
theorem exists_unclosed_of_groups {token text : List Char}
    (h : groups token text = .error fault) (hf : fault.ofBrackets = true) :
    ∃ inside, LeftOfGroups text ('[' :: inside) ∧ closeGroup? 0 inside = none := by
  generalize hl : text.length = n
  induction n using Nat.strongRecOn generalizing text with
  | _ n ih =>
  rcases text with _ | ⟨c, inside⟩
  · rw [groups] at h
    cases h
  by_cases ho : c = '['
  · subst ho
    rw [groups_open] at h
    split at h
    · next hc => exact ⟨inside, .all _, hc⟩
    next inner after hc =>
    obtain hg | ⟨segment, hg, h⟩ := bind_eq_error_iff.mp h
    · rw [ofBrackets_group hg] at hf
      cases hf
    obtain hr | ⟨path, -, h⟩ := bind_eq_error_iff.mp h
    · have hlt := length_closeGroup?_lt hc
      rw [List.length_cons] at hl
      obtain ⟨open', hleft, hn⟩ := ih after.length (by omega) hr rfl
      exact ⟨open', .behind hc hg hleft, hn⟩
    · cases h
  · rw [groups] at h
    · cases h
      cases hf
    · exact List.cons_ne_nil _ _
    · exact fun _ he => ho (List.cons.inj he).1

/-- A balanced token is not refused for its brackets. -/
theorem ofBrackets_token {text : List Char} (hb : Balanced text)
    (h : token text = .error fault) : fault.ofBrackets = false := by
  by_contra hf
  rw [Bool.not_eq_false] at hf
  have hg : groups text (text.dropWhile (· ≠ '[')) = .error fault := by
    unfold token at h
    split at h
    · cases h
      nomatch hf
    simp only at h
    split at h
    · exact h
    · exact map_eq_error_iff.mp h
  obtain ⟨inside, hleft, hn⟩ := exists_unclosed_of_groups hg hf
  obtain ⟨inner, after, hc⟩ := hleft.exists_closeGroup? hb
  rw [hc] at hn
  nomatch hn

/-- A text is refused for its brackets where they are checked, and nowhere else. -/
theorem read_eq_error_iff {text : List Char} (hf : fault.ofBrackets = true) :
    read text = .error fault ↔ checkBrackets text = .error fault := by
  unfold read
  refine bind_eq_error_iff.trans (or_iff_left ?_)
  rintro ⟨_, hc, h⟩
  obtain h | ⟨paths, -, h⟩ := bind_eq_error_iff.mp h
  · obtain ⟨token, ht, h⟩ := exists_of_mapM_eq_error h
    have hb := balanced_of_mem_tokens (checkBrackets_eq_ok_iff.mp hc) ht
    rw [ofBrackets_token hb h] at hf
    nomatch hf
  · nomatch h

end Faults

inductive GroupScan where
  /-- The text in front of the closing bracket, and the text behind it. -/
  | closed (front after : List Char)
  | unclosed
  /-- A bracket closes at depth zero. -/
  | belowZero
deriving DecidableEq

def GroupScan.push (c : Char) : GroupScan → GroupScan
  | .closed front after => .closed (c :: front) after
  | other => other

/-- Scans for the end of a group from the bracket that opens it, which counts as the first level of
depth. -/
def scanGroup (depth : Nat) : List Char → GroupScan
  | [] => .unclosed
  | c :: rest =>
    if c = '[' then (scanGroup (depth + 1) rest).push c
    else if c = ']' then
      match depth with
      | 0 => .belowZero
      | 1 => .closed [] rest
      | depth + 2 => (scanGroup (depth + 1) rest).push c
    else (scanGroup depth rest).push c

theorem scanGroup_cons {depth next : Nat} {c : Char} (h : climb? depth c = some next)
    (rest : List Char) :
    scanGroup (depth + 1) (c :: rest) = (scanGroup (next + 1) rest).push c := by
  by_cases ho : c = '['
  · subst ho
    obtain rfl := Option.some.inj h
    rfl
  by_cases hc : c = ']'
  · subst hc
    cases depth with
    | zero => nomatch h
    | succ depth =>
      obtain rfl := Option.some.inj h
      rfl
  rw [climb?_of_ne ho hc] at h
  obtain rfl := Option.some.inj h
  simp [scanGroup, ho, hc]

theorem scanGroup_succ (depth : Nat) (inside : List Char) :
    scanGroup (depth + 1) inside =
      (closeGroup? depth inside).elim .unclosed fun p => .closed p.1 p.2 := by
  induction inside generalizing depth with
  | nil => rfl
  | cons c rest ih =>
    cases hc : climb? depth c with
    | none =>
      obtain ⟨rfl, rfl⟩ := climb?_eq_none hc
      rfl
    | some next =>
      rw [scanGroup_cons hc, closeGroup?_cons hc, ih]
      cases closeGroup? next rest <;> rfl

theorem scanGroup_open (inside : List Char) :
    scanGroup 0 ('[' :: inside) =
      (closeGroup? 0 inside).elim .unclosed fun p => .closed ('[' :: p.1) p.2 := by
  change (scanGroup 1 inside).push '[' = _
  rw [scanGroup_succ]
  cases closeGroup? 0 inside <;> rfl

end PathText

open PathText

theorem Path.parse_eq_malformed_iff {text : String} {fault : TextFault}
    (hf : fault.ofBrackets = true) :
    Path.parse text = .error (.malformed text fault) ↔
      checkBrackets text.toList = .error fault := by
  rw [← read_eq_error_iff hf, Path.parse]
  split
  · next he =>
    obtain rfl := String.isEmpty_iff.mp he
    refine iff_of_false (by simp) fun h => ?_
    cases h
    cases hf
  · cases read text.toList <;> simp [Except.mapError]

namespace Path

variable {text : String}

theorem refusedFor_unmatched_iff {offset : Nat} :
    RefusedFor text ("unmatched `]` at " ++ toString offset) ↔
      checkBrackets text.toList = .error (.unmatchedBracket offset) := by
  rw [← parse_eq_malformed_iff rfl]
  simp only [RefusedFor, TextFault.message_eq_unmatched_iff, exists_eq_right]

theorem refusedFor_unclosed_iff :
    RefusedFor text "unclosed `[`" ↔
      (∀ front, front <+: text.toList → ¬ Overclosed front) ∧
        text.toList.count ']' < text.toList.count '[' := by
  rw [← checkBrackets_eq_unclosed_iff, ← parse_eq_malformed_iff rfl]
  simp only [RefusedFor, TextFault.message_eq_unclosed_iff, exists_eq_right]

theorem exists_refusedFor_unmatched_iff :
    (∃ offset : Nat, RefusedFor text ("unmatched `]` at " ++ toString offset)) ↔
      ∃ front, front <+: text.toList ∧ Overclosed front := by
  simp only [refusedFor_unmatched_iff, checkBrackets_eq_unmatched_iff, exists_overclosed_iff]
  constructor
  · rintro ⟨offset, front, back, he, hb, -⟩
    exact ⟨front, back, he, hb⟩
  · rintro ⟨front, back, he, hb⟩
    exact ⟨_, front, back, he, hb, rfl⟩

theorem refusedFor_unmatched_iff_first {offset : Nat} :
    RefusedFor text ("unmatched `]` at " ++ toString offset) ↔
      ∃ front back : String, text = front ++ "]" ++ back ∧
        (∀ p, p <+: front.toList → ¬ Overclosed p) ∧ Overclosed (front ++ "]").toList ∧
        offset = front.utf8ByteSize := by
  rw [refusedFor_unmatched_iff, checkBrackets_eq_unmatched_iff]
  constructor
  · rintro ⟨front, back, he, hb, rfl⟩
    obtain ⟨hp, ho⟩ := balanced_iff_overclosed_append.mp hb
    refine ⟨String.ofList front, String.ofList back, ?_, ?_, ?_, rfl⟩
    · rw [← String.toList_inj, he]
      simp
    · simpa using hp
    · simpa using ho
  · rintro ⟨front, back, rfl, hp, ho, rfl⟩
    refine ⟨front.toList, back.toList, by simp, balanced_iff_overclosed_append.mpr ⟨hp, ?_⟩, ?_⟩
    · simpa using ho
    · rw [String.ofList_toList]

theorem balanced_of_not_refusedFor
    (hm : ¬ ∃ offset : Nat, RefusedFor text ("unmatched `]` at " ++ toString offset))
    (hu : ¬ RefusedFor text "unclosed `[`") : Balanced text.toList := by
  rw [exists_refusedFor_unmatched_iff] at hm
  rw [refusedFor_unclosed_iff] at hu
  have hp : ∀ front, front <+: text.toList → ¬ Overclosed front :=
    fun front hf ho => hm ⟨front, hf, ho⟩
  exact balanced_iff_not_overclosed.mpr ⟨hp, fun hlt => hu ⟨hp, hlt⟩⟩

end Path

/-- A text is refused for an unmatched bracket exactly when some prefix closes more brackets than it
opens, at the first bracket that does so, counted in bytes of UTF-8; and for an unclosed one exactly
when no prefix does but the text leaves a bracket open. No other fault comes before these. In any
other text all tokens are balanced, and wherever a group is to be read from one, the scan from its
opening bracket finds the one that closes it, without counting below zero. -/
theorem brackets_checked_first (text : String) :
    ((∃ offset : Nat, Path.RefusedFor text ("unmatched `]` at " ++ toString offset)) ↔
      ∃ front, front <+: text.toList ∧ Overclosed front) ∧
    (∀ offset : Nat, Path.RefusedFor text ("unmatched `]` at " ++ toString offset) ↔
      ∃ front back : String, text = front ++ "]" ++ back ∧
        (∀ p, p <+: front.toList → ¬ Overclosed p) ∧ Overclosed (front ++ "]").toList ∧
        offset = front.utf8ByteSize) ∧
    (Path.RefusedFor text "unclosed `[`" ↔
      (∀ front, front <+: text.toList → ¬ Overclosed front) ∧
        text.toList.count ']' < text.toList.count '[') ∧
    ((¬ ∃ offset : Nat, Path.RefusedFor text ("unmatched `]` at " ++ toString offset)) →
      ¬ Path.RefusedFor text "unclosed `[`" →
      ∀ token ∈ tokens text.toList, Balanced token ∧
        PathText.token token ≠ .error .unclosedBracket ∧
        ∀ inside, LeftOfGroups (token.dropWhile (· ≠ '[')) ('[' :: inside) →
          ∃ inner after, closeGroup? 0 inside = some (inner, after) ∧
            scanGroup 0 ('[' :: inside) = .closed ('[' :: inner) after) := by
  refine ⟨Path.exists_refusedFor_unmatched_iff, fun _ => Path.refusedFor_unmatched_iff_first,
    Path.refusedFor_unclosed_iff, ?_⟩
  intro hm hu token ht
  have hb := balanced_of_mem_tokens (Path.balanced_of_not_refusedFor hm hu) ht
  refine ⟨hb, fun h => ?_, fun inside hleft => ?_⟩
  · nomatch ofBrackets_token hb h
  · obtain ⟨inner, after, hc⟩ := hleft.exists_closeGroup? hb
    refine ⟨inner, after, hc, ?_⟩
    rw [scanGroup_open, hc]
    rfl

theorem brackets_checked_first_nested :
    Path.RefusedFor "é]a[" ("unmatched `]` at " ++ toString 2) ∧
    Path.RefusedFor "a.[{k=[}]" "unclosed `[`" ∧
    (¬ ∃ offset : Nat, Path.RefusedFor "a[x[y]].b" ("unmatched `]` at " ++ toString offset)) ∧
    ¬ Path.RefusedFor "a[x[y]].b" "unclosed `[`" ∧
    ∃ inner after, closeGroup? 0 ['x', '[', 'y', ']', ']'] = some (inner, after) ∧
      scanGroup 0 ['[', 'x', '[', 'y', ']', ']'] = .closed ('[' :: inner) after := by
  have hfront : Balanced "é".toList := by decide
  obtain ⟨hp, ho⟩ := balanced_iff_overclosed_append.mp hfront
  have hopen : ∀ front, front <+: "a.[{k=[}]".toList → ¬ Overclosed front := by
    have hd : depth? 0 "a.[{k=[}]".toList = some 1 := by decide
    intro front hf
    exact not_overclosed_iff.mpr (by simpa using (depth?_eq_some_iff.mp hd).1 front hf)
  have hb : Balanced "a[x[y]].b".toList := by decide
  obtain ⟨hb, hle⟩ := balanced_iff_not_overclosed.mp hb
  obtain ⟨hunmatched, -, hunclosed, htokens⟩ := brackets_checked_first "a[x[y]].b"
  have hm : ¬ ∃ offset : Nat,
      Path.RefusedFor "a[x[y]].b" ("unmatched `]` at " ++ toString offset) :=
    fun h => by
      obtain ⟨front, hf, ho⟩ := hunmatched.mp h
      exact hb front hf ho
  have hu : ¬ Path.RefusedFor "a[x[y]].b" "unclosed `[`" := fun h => hle (hunclosed.mp h).2
  refine ⟨((brackets_checked_first "é]a[").2.1 2).mpr ⟨"é", "a[", by decide, hp, ?_, by decide⟩,
    (brackets_checked_first "a.[{k=[}]").2.2.1.mpr ⟨hopen, by decide⟩, hm, hu, ?_⟩
  · rwa [String.toList_append]
  · exact (htokens hm hu ['a', '[', 'x', '[', 'y', ']', ']'] (by decide)).2.2 _ (.all _)

end DocPath
