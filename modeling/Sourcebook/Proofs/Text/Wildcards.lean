-- What a wildcard pattern matches, item by item. The matcher keeps a table over all ends of the
-- text, so that a star costs no search; here each entry of the table is the match of one end.
import Mathlib
import Sourcebook.Text.Wildcard

namespace Sourcebook.Text

variable {c : Char} {s : List Char} {w : Wildcard} {ws : List Wildcard}

/-! ## The table -/

theorem anyFrom_cons (b : Bool) (rest : List Bool) :
    anyFrom (b :: rest) = (b || (anyFrom rest).headD false) :: anyFrom rest := by
  rw [anyFrom]
  split
  · next h => simp [h]
  · next h => simp [h]

/-- Every item but a star takes one character. -/
theorem matchTable_of_ne_star (hw : w ≠ .star) (s : List Char) (ws : List Wildcard) :
    matchTable s (w :: ws) =
      List.zipWith (fun c rest => w.accepts c && rest) s ((matchTable s ws).drop 1) ++ [false] := by
  cases w with
  | star => exact absurd rfl hw
  | any => rfl
  | exact d => rfl
  | oneOf negated items => rfl

theorem matchTable_ne_nil (s : List Char) (ws : List Wildcard) : matchTable s ws ≠ [] := by
  induction ws with
  | nil => simp [matchTable]
  | cons w ws ih =>
    by_cases hw : w = .star
    · subst hw
      obtain ⟨b, rest, h⟩ := List.exists_cons_of_ne_nil ih
      rw [matchTable, h, anyFrom_cons]
      simp
    · rw [matchTable_of_ne_star hw]
      simp

theorem matchTable_eq_cons (s : List Char) (ws : List Wildcard) :
    matchTable s ws = matchesAll ws s :: (matchTable s ws).drop 1 := by
  obtain ⟨b, rest, h⟩ := List.exists_cons_of_ne_nil (matchTable_ne_nil s ws)
  unfold matchesAll
  rw [h]
  simp

/-- The table of the rest of a text is the rest of its table. -/
theorem drop_matchTable (c : Char) (s : List Char) (ws : List Wildcard) :
    (matchTable (c :: s) ws).drop 1 = matchTable s ws := by
  induction ws with
  | nil => simp [matchTable]
  | cons w ws ih =>
    have htable := matchTable_eq_cons (c :: s) ws
    rw [ih] at htable
    by_cases hw : w = .star
    · subst hw
      rw [matchTable, matchTable, htable, anyFrom_cons]
      simp
    · rw [matchTable_of_ne_star hw, matchTable_of_ne_star hw, ih, matchTable_eq_cons s ws]
      simp

theorem matchTable_cons (c : Char) (s : List Char) (ws : List Wildcard) :
    matchTable (c :: s) ws = matchesAll ws (c :: s) :: matchTable s ws := by
  rw [← drop_matchTable c s ws]
  exact matchTable_eq_cons (c :: s) ws

/-! ## The items -/

@[simp]
theorem matchesAll_nil : matchesAll [] s = s.isEmpty := by
  cases s with
  | nil => rfl
  | cons c s => rfl

theorem matchesAll_star_nil : matchesAll (.star :: ws) [] = matchesAll ws [] := by
  have hend : (matchTable [] ws).drop 1 = [] := by
    induction ws with
    | nil => rfl
    | cons w ws ih =>
      by_cases hw : w = .star
      · subst hw
        rw [matchTable, matchTable_eq_cons, ih]
        rfl
      · rw [matchTable_of_ne_star hw]
        rfl
  unfold matchesAll
  rw [matchTable, matchTable_eq_cons, hend]
  simp [anyFrom, matchesAll]

theorem matchesAll_star_cons :
    matchesAll (.star :: ws) (c :: s) = (matchesAll ws (c :: s) || matchesAll (.star :: ws) s) := by
  have hhead : matchesAll (.star :: ws) (c :: s) =
      (anyFrom (matchTable (c :: s) ws)).headD false := rfl
  rw [hhead, matchTable_cons, anyFrom_cons]
  rfl

/-- A star leaves any end of the text to the items behind it. -/
theorem matchesAll_star :
    matchesAll (.star :: ws) s = true ↔ ∃ t, t <:+ s ∧ matchesAll ws t = true := by
  induction s with
  | nil => simp [matchesAll_star_nil]
  | cons c s ih =>
    rw [matchesAll_star_cons, Bool.or_eq_true, ih]
    constructor
    · rintro (h | ⟨t, ht, h⟩)
      · exact ⟨c :: s, List.suffix_rfl, h⟩
      · exact ⟨t, ht.trans (List.suffix_cons c s), h⟩
    · rintro ⟨t, ht, h⟩
      rcases List.suffix_cons_iff.mp ht with rfl | ht
      · exact Or.inl h
      · exact Or.inr ⟨t, ht, h⟩

/-- Every other item takes one character that it accepts. -/
theorem matchesAll_one (hw : w ≠ .star) :
    matchesAll (w :: ws) s = true ↔
      ∃ c t, s = c :: t ∧ w.accepts c = true ∧ matchesAll ws t = true := by
  have hhead : matchesAll (w :: ws) s = (matchTable s (w :: ws)).headD false := rfl
  rw [hhead, matchTable_of_ne_star hw]
  cases s with
  | nil => simp
  | cons d s =>
    rw [drop_matchTable, matchTable_eq_cons s ws]
    simp only [List.zipWith_cons_cons, List.cons_append, List.headD_cons, Bool.and_eq_true]
    constructor
    · rintro ⟨hd, hs⟩
      exact ⟨d, s, rfl, hd, hs⟩
    · rintro ⟨c, t, he, hc, ht⟩
      cases he
      exact ⟨hc, ht⟩

theorem matchesAll_exact :
    matchesAll (.exact c :: ws) s = true ↔ ∃ t, s = c :: t ∧ matchesAll ws t = true := by
  rw [matchesAll_one (by simp)]
  constructor
  · rintro ⟨d, t, rfl, hd, ht⟩
    simp only [Wildcard.accepts, beq_iff_eq] at hd
    subst hd
    exact ⟨t, rfl, ht⟩
  · rintro ⟨t, rfl, ht⟩
    exact ⟨c, t, rfl, by simp [Wildcard.accepts], ht⟩

/-- Characters that stand for themselves are the start of the text. -/
theorem matchesAll_literal {literal : List Char} :
    matchesAll (literal.map .exact ++ ws) s = true ↔
      ∃ t, s = literal ++ t ∧ matchesAll ws t = true := by
  induction literal generalizing s with
  | nil => simp
  | cons d literal ih =>
    rw [List.map_cons, List.cons_append, matchesAll_exact]
    constructor
    · rintro ⟨t, rfl, ht⟩
      obtain ⟨u, rfl, hu⟩ := ih.mp ht
      exact ⟨u, rfl, hu⟩
    · rintro ⟨u, rfl, hu⟩
      exact ⟨literal ++ u, rfl, ih.mpr ⟨u, rfl, hu⟩⟩

/-! ## Sets that are never closed -/

/-- What follows a character, where a text starts with it. -/
def past (c : Char) : List Char → List Char
  | d :: s => if d = c then s else d :: s
  | [] => []

theorem past_of_ne (h : ∀ rest, s = c :: rest → False) : past c s = s := by
  cases s with
  | nil => rfl
  | cons d s =>
    refine if_neg ?_
    rintro rfl
    exact h s rfl

theorem past_append (hc : c ≠ '/') (s t : List Char) :
    past c (s ++ '/' :: t) = past c s ++ '/' :: t := by
  cases s with
  | nil => exact if_neg hc.symm
  | cons d s =>
    rw [List.cons_append, past, past]
    split
    · rfl
    · rfl

/-- A set is open to the end when no bracket closes it behind a mark of negation and a bracket that
comes first. -/
theorem cutSet_eq_none_iff : cutSet s = none ↔ ']' ∉ past ']' (past '!' s) := by
  have hclosed : ∀ body : List Char, body.dropWhile (· != ']') = [] ↔ ']' ∉ body := by
    intro body
    rw [List.dropWhile_eq_nil_iff]
    constructor
    · intro hall hmem
      simpa using hall _ hmem
    · intro hmem d hd
      rw [bne_iff_ne]
      rintro rfl
      exact hmem hd
  unfold cutSet
  split
  next mark body hmark =>
  split
  next bracket inner hbracket =>
  have hbody : past '!' s = body := by
    split at hmark
    · cases hmark
      rfl
    · next hne =>
      cases hmark
      exact past_of_ne hne
  have hinner : past ']' body = inner := by
    split at hbracket
    · cases hbracket
      rfl
    · next hne =>
      cases hbracket
      exact past_of_ne hne
  rw [hbody, hinner, ← hclosed]
  split
  · next h => simp [h]
  · next h => simp [h]

/-- What follows a slash closes no set when it has no closing bracket. -/
theorem cutSet_append_eq_none {t : List Char} (h : cutSet s = none) (ht : ']' ∉ t) :
    cutSet (s ++ '/' :: t) = none := by
  rw [cutSet_eq_none_iff] at h ⊢
  rw [past_append (by decide), past_append (by decide), List.mem_append, not_or]
  exact ⟨h, by simp [ht]⟩

/-! ## Patterns that stand for themselves -/

/-- A pattern that stands for itself: it is read as the characters that it is written with. -/
def IsLiteral (s : List Char) : Prop := readWildcards 0 s = s.map .exact

theorem setOf_ne_exact (content : List Char) (c : Char) : setOf content ≠ .exact c := by
  unfold setOf
  split
  · split
    · simp
    · simp
  · split
    · simp
    · simp
    · simp
    · simp

/-- The first character of a literal is no special one, or a bracket that is never closed. -/
theorem IsLiteral.cons (h : IsLiteral (c :: s)) :
    IsLiteral s ∧ c ≠ '*' ∧ c ≠ '?' ∧ (c = '[' → cutSet s = none) := by
  unfold IsLiteral at h
  rw [readWildcards, List.map_cons] at h
  split at h
  · cases h
  · next hstar =>
    split at h
    · cases h
    · next hany =>
      split at h
      · cases hcut : cutSet s with
        | none =>
          rw [hcut] at h
          exact ⟨(List.cons.inj h).2, hstar, hany, fun _ => rfl⟩
        | some found =>
          rw [hcut] at h
          exact absurd (List.cons.inj h).1 (setOf_ne_exact _ _)
      · next hset => exact ⟨(List.cons.inj h).2, hstar, hany, fun he => absurd he hset⟩

/-- Without stars, question marks and brackets a text is a literal. -/
theorem isLiteral_of_plain (h : ∀ c ∈ s, c ≠ '*' ∧ c ≠ '?' ∧ c ≠ '[') : IsLiteral s := by
  induction s with
  | nil => rfl
  | cons c s ih =>
    obtain ⟨⟨hstar, hany, hset⟩, hrest⟩ := List.forall_mem_cons.mp h
    unfold IsLiteral
    rw [readWildcards, if_neg hstar, if_neg hany, if_neg hset, ih hrest, List.map_cons]

/-- A literal is read in the same way with a slash and more behind it. -/
theorem readWildcards_literal {t : List Char} (h : IsLiteral s) (ht : ']' ∉ t) :
    readWildcards 0 (s ++ '/' :: t) = s.map .exact ++ readWildcards 0 ('/' :: t) := by
  induction s with
  | nil => rfl
  | cons c s ih =>
    obtain ⟨hrest, hstar, hany, hset⟩ := h.cons
    rw [List.cons_append, readWildcards, if_neg hstar, if_neg hany, ih hrest]
    split
    · next hc => rw [cutSet_append_eq_none (hset hc) ht, hc, List.map_cons, List.cons_append]
    · rw [List.map_cons, List.cons_append]

theorem mergeStars_of_ne_star (hw : w ≠ .star) : mergeStars (w :: ws) = w :: mergeStars ws := by
  cases w with
  | star => exact absurd rfl hw
  | any => rfl
  | exact d => rfl
  | oneOf negated items => rfl

theorem mergeStars_literal (literal : List Char) (ws : List Wildcard) :
    mergeStars (literal.map .exact ++ ws) = literal.map .exact ++ mergeStars ws := by
  induction literal with
  | nil => rfl
  | cons c literal ih =>
    rw [List.map_cons, List.cons_append, mergeStars_of_ne_star (by simp), ih, List.cons_append]

/-! ## Patterns for any depth -/

/-- Behind two stars and a slash a pattern is matched against what follows a slash. -/
theorem wildcardMatch_anyDepth (pattern text : List Char) :
    wildcardMatch ('*' :: '*' :: '/' :: pattern) text = true ↔
      ∃ t, '/' :: t <:+ text ∧ wildcardMatch pattern t = true := by
  have hread : wildcards ('*' :: '*' :: '/' :: pattern) =
      .star :: .exact '/' :: wildcards pattern := by
    unfold wildcards
    rw [readWildcards, if_pos rfl, readWildcards, if_pos rfl, readWildcards, if_neg (by decide),
      if_neg (by decide), if_neg (by decide)]
    rfl
  unfold wildcardMatch
  rw [hread, matchesAll_star]
  constructor
  · rintro ⟨u, hu, h⟩
    obtain ⟨t, rfl, ht⟩ := matchesAll_exact.mp h
    exact ⟨t, hu, ht⟩
  · rintro ⟨t, ht, h⟩
    exact ⟨'/' :: t, ht, matchesAll_exact.mpr ⟨t, rfl, h⟩⟩

/-- A literal in front of a slash and two stars matches what starts with it and goes on with a
slash. -/
theorem wildcardMatch_inside {literal text : List Char} (h : IsLiteral literal) :
    wildcardMatch (literal ++ ['/', '*', '*']) text = true ↔ ∃ t, text = literal ++ '/' :: t := by
  have hread : wildcards (literal ++ ['/', '*', '*']) =
      literal.map .exact ++ [.exact '/', .star] := by
    unfold wildcards
    rw [readWildcards_literal h (by decide), mergeStars_literal]
    rfl
  unfold wildcardMatch
  rw [hread, matchesAll_literal]
  constructor
  · rintro ⟨u, rfl, hu⟩
    obtain ⟨t, rfl, -⟩ := matchesAll_exact.mp hu
    exact ⟨t, rfl⟩
  · rintro ⟨t, rfl⟩
    refine ⟨'/' :: t, rfl, matchesAll_exact.mpr ⟨t, rfl, matchesAll_star.mpr ⟨[], ?_, ?_⟩⟩⟩
    · exact List.nil_suffix
    · simp

end Sourcebook.Text
