-- Stripping comments. Without block comments every line keeps the code in front of its first line
-- comment. Leaving a block comment out joins what stood around it, and only what is joined so can
-- be a comment again.
import Mathlib
import Sourcebook.Book.Snippet
import Sourcebook.Proofs.Text.Blanks
import Sourcebook.Proofs.Text.Pieces

namespace Sourcebook.Snippet

open Text

/-! ## Comments as they stand in a text -/

/-- A block comment from its opening to its end. -/
def HoldsBlock (s : List Char) : Prop := ∃ a b c, s = a ++ '/' :: '*' :: (b ++ '*' :: '/' :: c)

/-- A block comment with a slash right before it and a star right behind it. -/
def Glued (s : List Char) : Prop :=
  ∃ a b c, s = a ++ '/' :: '/' :: '*' :: (b ++ '*' :: '/' :: '*' :: c)

/-- Wherever two slashes stand, they follow a colon. -/
def NoLineComment (s : List Char) : Prop := ∀ a b, s = a ++ '/' :: '/' :: b → a.getLast? = some ':'

/-- A line comment starts behind the first part of a line: two slashes that do not follow a
colon. -/
def commentBehind (line part : List Char) : Bool :=
  ['/', '/'].isPrefixOf (line.drop part.length) && part.getLast? != some ':'

/-- The code of a line: what stands in front of its first line comment, or the whole line. -/
def codeOf (line : List Char) : List Char := (line.inits.find? (commentBehind line)).getD line

/-! ## The code of a line -/

theorem cutLineComment_eq (before : Char) (line : List Char) : cutLineComment before line =
    (line.inits.find? fun part => ['/', '/'].isPrefixOf (line.drop part.length) &&
      (before :: part).getLast? != some ':').getD line := by
  induction line generalizing before with
  | nil => simp [cutLineComment]
  | cons c s ih =>
    have hhere : (['/', '/'].isPrefixOf (c :: s) && [before].getLast? != some ':') =
        (c = '/' && s.head? == some '/' && before != ':') := by
      cases s with
      | nil => simp
      | cons d s =>
        rw [Bool.eq_iff_iff]
        simp only [List.isPrefixOf, Bool.and_eq_true, beq_iff_eq, bne_iff_ne, List.getLast?_singleton,
          ne_eq, Option.some.injEq, List.head?_cons, decide_eq_true_eq, and_true]
        rw [eq_comm (a := c), eq_comm (a := d)]
    rw [cutLineComment, List.inits_cons, List.find?_cons]
    simp only [List.length_nil, List.drop_zero, hhere]
    by_cases h : (c = '/' && s.head? == some '/' && before != ':') = true
    · simp [h]
    · rw [if_neg h, Bool.eq_false_iff.mpr h, List.find?_map, ih]
      simp only [Function.comp_def, List.length_cons, List.drop_succ_cons, List.getLast?_cons_cons]
      cases List.find? _ s.inits <;> rfl

theorem cut_eq_codeOf (line : List Char) : cutLineComment ' ' line = codeOf line := by
  rw [cutLineComment_eq, codeOf]
  refine congrArg (fun p => (line.inits.find? p).getD line) (funext fun part => ?_)
  rw [commentBehind, List.getLast?_cons]
  cases part.getLast? with
  | none => rfl
  | some c => rfl

/-- Code is the start of its line, and ends there or in front of a comment. -/
theorem line_eq_codeOf (line : List Char) : codeOf line = line ∨
    ∃ b, line = codeOf line ++ '/' :: '/' :: b ∧ (codeOf line).getLast? ≠ some ':' := by
  unfold codeOf
  cases h : line.inits.find? (commentBehind line) with
  | none => exact Or.inl rfl
  | some part =>
    have hbehind : commentBehind line part = true := List.find?_some h
    obtain ⟨hslashes, hcolon⟩ := Bool.and_eq_true_iff.mp hbehind
    obtain ⟨tail, rfl⟩ := (List.mem_inits _ _).mp (List.mem_of_find?_eq_some h)
    rw [List.drop_left] at hslashes
    obtain ⟨b, rfl⟩ := List.isPrefixOf_iff_prefix.mp hslashes
    exact Or.inr ⟨b, rfl, by simpa using hcolon⟩

theorem prefix_codeOf (line : List Char) : codeOf line <+: line := by
  rcases line_eq_codeOf line with h | ⟨b, h, -⟩
  · rw [h]
  · exact ⟨_, h.symm⟩

theorem head?_cut {before : Char} {s : List Char} {c : Char}
    (h : (cutLineComment before s).head? = some c) : s.head? = some c := by
  cases s with
  | nil => exact h
  | cons d s =>
    rw [cutLineComment] at h
    split at h
    · cases h
    · exact h

theorem cut_slashes {before : Char} {line a b : List Char}
    (h : cutLineComment before line = a ++ '/' :: '/' :: b) : (before :: a).getLast? = some ':' := by
  induction line generalizing before a with
  | nil => simp [cutLineComment] at h
  | cons c s ih =>
    rw [cutLineComment] at h
    split at h
    · simp at h
    · next hno =>
      cases a with
      | nil =>
        obtain ⟨rfl, hs⟩ := List.cons.inj h
        have hhead : s.head? = some '/' := head?_cut (by rw [hs]; rfl)
        simpa [hhead] using hno
      | cons d a =>
        obtain ⟨rfl, hs⟩ := List.cons.inj h
        rw [List.getLast?_cons_cons]
        exact ih hs

theorem noLineComment_codeOf (line : List Char) : NoLineComment (codeOf line) := by
  intro a b h
  rw [← cut_eq_codeOf] at h
  have hlast := cut_slashes h
  rw [List.getLast?_cons] at hlast
  cases ha : a.getLast? with
  | none => simp [ha] at hlast
  | some c => simpa [ha] using hlast

/-- A line without a comment is code. -/
theorem codeOf_eq_self {line : List Char} (h : NoLineComment line) : codeOf line = line := by
  rcases line_eq_codeOf line with h' | ⟨b, hb, hcolon⟩
  · exact h'
  · exact absurd (h _ b hb) hcolon

theorem codeOf_blank {line : List Char} (h : allBlank line = true) : codeOf line = line := by
  refine codeOf_eq_self fun a b he => ?_
  have hslash := List.all_eq_true.mp h '/' (by simp [he])
  exact absurd hslash (by decide)

/-! ## One line -/

theorem allBlank_trimEnd (s : List Char) : allBlank (trimEnd s) = allBlank s := by
  obtain ⟨tail, hs, htail⟩ := exists_trimEnd s
  conv => rhs; rw [hs]
  simp only [allBlank, List.all_append] at htail ⊢
  rw [htail, Bool.and_true]

theorem trimEnd_trimEnd (s : List Char) : trimEnd (trimEnd s) = trimEnd s := by
  obtain ⟨tail, hs, htail⟩ := exists_trimEnd s
  conv => rhs; rw [hs, trimEnd_append _ htail]

theorem prefix_trimEnd (s : List Char) : trimEnd s <+: s := by
  obtain ⟨tail, hs, -⟩ := exists_trimEnd s
  exact ⟨tail, hs.symm⟩

/-- A line stays when it is blank, or its code is not. -/
def stays (line : List Char) : Bool := allBlank line || !allBlank (codeOf line)

theorem keptLine_eq (line : List Char) :
    keptLine line = if stays line then some (trimEnd (codeOf line)) else none := by
  simp only [keptLine, cleanLine, cut_eq_codeOf, allBlank_trimEnd]
  rw [Bool.or_comm]
  rfl

theorem keptLine_eq_some {line kept : List Char} :
    keptLine line = some kept ↔ stays line = true ∧ kept = trimEnd (codeOf line) := by
  rw [keptLine_eq]
  split
  · next h => simp [h, eq_comm]
  · next h => simp [h]

theorem prefix_keptLine {line kept : List Char} (h : keptLine line = some kept) : kept <+: line := by
  obtain ⟨-, rfl⟩ := keptLine_eq_some.mp h
  exact (prefix_trimEnd _).trans (prefix_codeOf line)

theorem filterMap_keptLine (lines : List (List Char)) :
    lines.filterMap keptLine = (lines.filter stays).map fun line => trimEnd (codeOf line) := by
  induction lines with
  | nil => rfl
  | cons line lines ih =>
    rw [List.filterMap_cons, keptLine_eq, List.filter_cons, ih]
    split <;> simp_all

theorem NoLineComment.front {s t : List Char} (h : NoLineComment t) (hs : s <+: t) :
    NoLineComment s := by
  obtain ⟨tail, rfl⟩ := hs
  rintro a b rfl
  exact h a (b ++ tail) (by simp)

theorem noLineComment_keptLine {line kept : List Char} (h : keptLine line = some kept) :
    NoLineComment kept := by
  obtain ⟨-, rfl⟩ := keptLine_eq_some.mp h
  exact (noLineComment_codeOf line).front (prefix_trimEnd _)

/-- What is left of a line is left of it again. -/
theorem keptLine_again {line kept : List Char} (h : keptLine line = some kept) :
    keptLine kept = some kept := by
  have hcode : codeOf kept = kept := codeOf_eq_self (noLineComment_keptLine h)
  obtain ⟨-, rfl⟩ := keptLine_eq_some.mp h
  refine keptLine_eq_some.mpr ⟨?_, ?_⟩
  · rw [stays, hcode]
    exact Bool.or_not_self _
  · rw [hcode, trimEnd_trimEnd]

/-! ## Block comments -/

theorem closes_iff {s : List Char} : closes s = true ↔ ∃ b c, s = b ++ '*' :: '/' :: c := by
  fun_induction closes s with
  | case1 s => exact iff_of_true rfl ⟨[], s, rfl⟩
  | case2 d s hd ih =>
    rw [ih]
    constructor
    · rintro ⟨b, c, rfl⟩
      exact ⟨d :: b, c, rfl⟩
    · rintro ⟨b, c, h⟩
      cases b with
      | nil => exact absurd (List.cons.inj h).2 fun hs => hd c (List.cons.inj h).1 hs
      | cons e b => exact ⟨b, c, (List.cons.inj h).2⟩
  | case3 => simp

theorem holdsBlock_iff {s : List Char} :
    HoldsBlock s ↔ ∃ a r, s = a ++ '/' :: '*' :: r ∧ closes r = true := by
  constructor
  · rintro ⟨a, b, c, rfl⟩
    exact ⟨a, _, rfl, closes_iff.mpr ⟨b, c, rfl⟩⟩
  · rintro ⟨a, r, rfl, h⟩
    obtain ⟨b, c, rfl⟩ := closes_iff.mp h
    exact ⟨a, b, c, rfl⟩

theorem not_holdsBlock_nil : ¬ HoldsBlock [] := by
  rintro ⟨a, b, c, h⟩
  simp at h

theorem holdsBlock_cons {d : Char} {s : List Char} : HoldsBlock (d :: s) ↔
    (∃ r, d = '/' ∧ s = '*' :: r ∧ closes r = true) ∨ HoldsBlock s := by
  simp only [holdsBlock_iff]
  constructor
  · rintro ⟨a, r, h, hr⟩
    cases a with
    | nil => exact Or.inl ⟨r, (List.cons.inj h).1, (List.cons.inj h).2, hr⟩
    | cons e a => exact Or.inr ⟨a, r, (List.cons.inj h).2, hr⟩
  · rintro (⟨r, rfl, rfl, hr⟩ | ⟨a, r, rfl, hr⟩)
    · exact ⟨[], r, rfl, hr⟩
    · exact ⟨d :: a, r, rfl, hr⟩

theorem holdsBlock_opened {s : List Char} :
    HoldsBlock ('/' :: '*' :: s) ↔ closes s = true ∨ HoldsBlock s := by
  rw [holdsBlock_cons, holdsBlock_cons (d := '*')]
  simp

theorem Glued.cons {s : List Char} (h : Glued s) (d : Char) : Glued (d :: s) := by
  obtain ⟨a, b, c, rfl⟩ := h
  exact ⟨d :: a, b, c, rfl⟩

theorem dropBlocks_sublist (inside : Bool) (s : List Char) : (dropBlocks inside s).Sublist s := by
  fun_induction dropBlocks inside s with
  | case1 => exact List.Sublist.refl _
  | case2 s ih => exact (ih.cons _).cons _
  | case3 d s _ ih => exact ih.cons _
  | case4 s _ ih => exact (ih.cons _).cons _
  | case5 s _ ih => exact (ih.cons_cons _).cons_cons _
  | case6 d s _ ih => exact ih.cons_cons _

/-- Only complete block comments are left out. -/
theorem dropBlocks_eq_self {s : List Char} : dropBlocks false s = s ↔ ¬ HoldsBlock s := by
  generalize hin : false = inside
  fun_induction dropBlocks inside s with
  | case1 => exact iff_of_true rfl not_holdsBlock_nil
  | case2 s _ => cases hin
  | case3 d s _ _ => cases hin
  | case4 s hs _ =>
    have hlength := (dropBlocks_sublist true s).length_le
    refine iff_of_false (fun he => ?_) (not_not.mpr (holdsBlock_opened.mpr (Or.inl hs)))
    rw [he] at hlength
    simp at hlength
  | case5 s hs ih =>
    rw [holdsBlock_opened, or_iff_right hs, ← ih hin]
    simp
  | case6 d s hd ih =>
    rw [holdsBlock_cons, or_iff_right fun ⟨r, h1, h2, _⟩ => hd r h1 h2, ← ih hin]
    simp

/-- A star that comes first when the block comments are left out came first, or right behind a
block comment. -/
theorem star_of_dropBlocks {inside : Bool} {s r : List Char} : dropBlocks inside s = '*' :: r →
    match inside with
    | true => ∃ b c, s = b ++ '*' :: '/' :: '*' :: c
    | false => (∃ c, s = '*' :: c) ∨ ∃ b c, s = '/' :: '*' :: (b ++ '*' :: '/' :: '*' :: c) := by
  intro h
  fun_induction dropBlocks inside s with
  | case1 => cases h
  | case2 s ih =>
    rcases ih h with ⟨c, rfl⟩ | ⟨b, c, rfl⟩
    · exact ⟨[], c, rfl⟩
    · exact ⟨'*' :: '/' :: '/' :: '*' :: b, c, rfl⟩
  | case3 d s _ ih =>
    obtain ⟨b, c, rfl⟩ := ih h
    exact ⟨d :: b, c, rfl⟩
  | case4 s _ ih =>
    obtain ⟨b, c, rfl⟩ := ih h
    exact Or.inr ⟨b, c, rfl⟩
  | case5 s _ _ => exact absurd (List.cons.inj h).1 (by decide)
  | case6 d s _ _ => exact Or.inl ⟨s, congrArg (· :: s) (List.cons.inj h).1⟩

/-- A block comment that is there when the block comments are left out was joined at its opening. -/
theorem glued_of_dropBlocks {inside : Bool} {s : List Char} (h : HoldsBlock (dropBlocks inside s)) :
    Glued s := by
  fun_induction dropBlocks inside s with
  | case1 => exact absurd h not_holdsBlock_nil
  | case2 s ih => exact ((ih h).cons _).cons _
  | case3 d s _ ih => exact (ih h).cons d
  | case4 s _ ih => exact ((ih h).cons _).cons _
  | case5 s hs ih =>
    rcases holdsBlock_opened.mp h with hclosed | hinside
    · -- nothing is closed further on, so nothing was left out there
      have hno : ¬ HoldsBlock s := by
        rintro ⟨a, b, c, rfl⟩
        exact hs (closes_iff.mpr ⟨a ++ '/' :: '*' :: b, c, by simp⟩)
      rw [dropBlocks_eq_self.mpr hno] at hclosed
      exact absurd hclosed hs
    · exact ((ih hinside).cons _).cons _
  | case6 d s hd ih =>
    rcases holdsBlock_cons.mp h with ⟨r, rfl, hstar, -⟩ | hinside
    · rcases star_of_dropBlocks hstar with ⟨c, rfl⟩ | ⟨b, c, rfl⟩
      · exact absurd rfl (hd c rfl)
      · exact ⟨[], b, c, rfl⟩
    · exact (ih hinside).cons d

/-! ## Lines -/

/-- Two characters that are no line feeds stand in one of two texts with a line feed between
them. -/
theorem pair_in_lines {l t a b : List Char} {x y : Char} (hx : x ≠ '\n') (hy : y ≠ '\n')
    (h : l ++ '\n' :: t = a ++ x :: y :: b) :
    (∃ b', l = a ++ x :: y :: b' ∧ b = b' ++ '\n' :: t) ∨
      ∃ a', a = l ++ '\n' :: a' ∧ t = a' ++ x :: y :: b := by
  rcases List.append_eq_append_iff.mp h with ⟨m, rfl, hm⟩ | ⟨m, rfl, hm⟩
  · cases m with
    | nil => exact absurd (List.cons.inj hm).1.symm hx
    | cons c m =>
      obtain ⟨rfl, rfl⟩ := List.cons.inj hm
      exact Or.inr ⟨m, rfl, rfl⟩
  · match m with
    | [] => exact absurd (List.cons.inj hm).1 hx
    | [c] => exact absurd (List.cons.inj (List.cons.inj hm).2).1 hy
    | c :: d :: m =>
      simp only [List.cons_append, List.cons.injEq] at hm
      obtain ⟨rfl, rfl, hb⟩ := hm
      exact Or.inl ⟨m, rfl, hb⟩

theorem closes_line {l t : List Char} :
    closes (l ++ '\n' :: t) = true ↔ closes l = true ∨ closes t = true := by
  simp only [closes_iff]
  constructor
  · rintro ⟨b, c, h⟩
    rcases pair_in_lines (by decide) (by decide) h with ⟨c', rfl, -⟩ | ⟨b', -, rfl⟩
    · exact Or.inl ⟨b, c', rfl⟩
    · exact Or.inr ⟨b', c, rfl⟩
  · rintro (⟨b, c, rfl⟩ | ⟨b, c, rfl⟩)
    · exact ⟨b, c ++ '\n' :: t, by simp⟩
    · exact ⟨l ++ '\n' :: b, c, by simp⟩

/-- A block comment in lines is in one of them, or goes from one to another. -/
theorem holdsBlock_line {l t : List Char} : HoldsBlock (l ++ '\n' :: t) ↔
    HoldsBlock l ∨ ['/', '*'] <:+: l ∧ closes t = true ∨ HoldsBlock t := by
  simp only [holdsBlock_iff]
  constructor
  · rintro ⟨a, r, h, hr⟩
    rcases pair_in_lines (by decide) (by decide) h with ⟨r', rfl, rfl⟩ | ⟨a', -, rfl⟩
    · rcases closes_line.mp hr with hr | hr
      · exact Or.inl ⟨a, r', rfl, hr⟩
      · exact Or.inr (Or.inl ⟨⟨a, r', by simp⟩, hr⟩)
    · exact Or.inr (Or.inr ⟨a', r, rfl, hr⟩)
  · rintro (⟨a, r, rfl, hr⟩ | ⟨⟨a, r, rfl⟩, ht⟩ | ⟨a, r, rfl, hr⟩)
    · exact ⟨a, r ++ '\n' :: t, by simp, closes_line.mpr (Or.inl hr)⟩
    · exact ⟨a, r ++ '\n' :: t, by simp, closes_line.mpr (Or.inr ht)⟩
    · exact ⟨l ++ '\n' :: a, r, by simp, hr⟩

theorem closes_joinLines (l : List Char) (ls : List (List Char)) :
    closes (joinLines (l :: ls)) = true ↔ closes l = true ∨ closes (joinLines ls) = true := by
  cases ls with
  | nil => simp [joinLines, joinWith, closes]
  | cons m ms => exact closes_line

theorem holdsBlock_joinLines (l : List Char) (ls : List (List Char)) :
    HoldsBlock (joinLines (l :: ls)) ↔
      HoldsBlock l ∨ ['/', '*'] <:+: l ∧ closes (joinLines ls) = true ∨ HoldsBlock (joinLines ls) := by
  cases ls with
  | nil => simp [joinLines, joinWith, closes, not_holdsBlock_nil]
  | cons m ms => exact holdsBlock_line

section Shortened

variable {f : List Char → Option (List Char)} (hf : ∀ l k, f l = some k → k <+: l)

include hf

/-- Lines that are shortened at their ends, or left out, close no more block comments. -/
theorem closes_of_shortened {ls : List (List Char)}
    (h : closes (joinLines (ls.filterMap f)) = true) : closes (joinLines ls) = true := by
  induction ls with
  | nil => exact h
  | cons l ls ih =>
    rw [closes_joinLines]
    cases hl : f l with
    | none =>
      rw [List.filterMap_cons_none hl] at h
      exact Or.inr (ih h)
    | some k =>
      rw [List.filterMap_cons_some hl, closes_joinLines] at h
      refine h.imp (fun hk => ?_) ih
      obtain ⟨r, rfl⟩ := hf l k hl
      obtain ⟨b, c, rfl⟩ := closes_iff.mp hk
      exact closes_iff.mpr ⟨b, c ++ r, by simp⟩

theorem holdsBlock_of_shortened {ls : List (List Char)}
    (h : HoldsBlock (joinLines (ls.filterMap f))) : HoldsBlock (joinLines ls) := by
  induction ls with
  | nil => exact h
  | cons l ls ih =>
    rw [holdsBlock_joinLines]
    cases hl : f l with
    | none =>
      rw [List.filterMap_cons_none hl] at h
      exact Or.inr (Or.inr (ih h))
    | some k =>
      rw [List.filterMap_cons_some hl, holdsBlock_joinLines] at h
      obtain ⟨r, rfl⟩ := hf l k hl
      rcases h with ⟨a, b, c, rfl⟩ | ⟨hopen, hclosed⟩ | h
      · exact Or.inl ⟨a, b, c ++ r, by simp⟩
      · exact Or.inr (Or.inl
          ⟨hopen.trans (List.prefix_append _ _).isInfix, closes_of_shortened hf hclosed⟩)
      · exact Or.inr (Or.inr (ih h))

/-- Shortened lines have their characters in the order in which the lines have them. -/
theorem shortened_sublist (ls : List (List Char)) :
    (joinLines (ls.filterMap f)).Sublist (joinLines ls) := by
  induction ls with
  | nil => exact List.Sublist.refl _
  | cons l ls ih =>
    have hskip : (joinLines ls).Sublist (joinLines (l :: ls)) := by
      cases ls with
      | nil => exact List.nil_sublist _
      | cons m ms => exact (List.sublist_cons_self _ _).trans (List.sublist_append_right l _)
    cases hl : f l with
    | none =>
      rw [List.filterMap_cons_none hl]
      exact ih.trans hskip
    | some k =>
      rw [List.filterMap_cons_some hl]
      have hk := (hf l k hl).sublist
      by_cases hrest : ls.filterMap f = []
      · have hfirst : l.Sublist (joinLines (l :: ls)) := by
          cases ls with
          | nil => exact List.Sublist.refl _
          | cons m ms => exact List.sublist_append_left l _
        rw [hrest]
        exact hk.trans hfirst
      · have hne : ls ≠ [] := by
          rintro rfl
          exact hrest rfl
        unfold joinLines at ih ⊢
        rw [joinWith_cons hrest, joinWith_cons hne]
        exact hk.append (ih.cons_cons _)

end Shortened

/-- A line comment in lines is in one of them. -/
theorem noLineComment_joinLines {ls : List (List Char)} :
    NoLineComment (joinLines ls) ↔ ∀ l ∈ ls, NoLineComment l := by
  induction ls with
  | nil => exact iff_of_true (fun a b h => by simp [joinLines, joinWith] at h) fun _ h => nomatch h
  | cons l ls ih =>
    rw [List.forall_mem_cons, ← ih]
    cases ls with
    | nil =>
      rw [ih]
      simp [joinLines, joinWith]
    | cons m ms =>
      have hfollows : ∀ a : List Char,
          (l ++ '\n' :: a).getLast? = some ':' ↔ a.getLast? = some ':' := by
        intro a
        rw [List.getLast?_append_of_ne_nil _ (by simp), List.getLast?_cons]
        cases a.getLast? <;> simp
      constructor
      · refine fun h => ⟨fun a b hl => ?_, fun a b hs => ?_⟩
        · exact h a (b ++ '\n' :: joinLines (m :: ms)) (by simp [joinLines, joinWith, hl])
        · exact (hfollows a).mp (h (l ++ '\n' :: a) b (by
            rw [List.append_assoc, List.cons_append, ← hs]
            rfl))
      · rintro ⟨hl, hrest⟩ a b hs
        rcases pair_in_lines (by decide) (by decide) hs with ⟨b', hb, -⟩ | ⟨a', rfl, ha⟩
        · exact hl a b' hb
        · exact (hfollows a').mpr (hrest a' b ha)

/-! ## The whole text -/

theorem stripComments_eq (content : List Char) : stripComments content =
    joinLines ((splitLines (dropBlocks false content)).filterMap keptLine) := rfl

theorem keptLine_shortens : ∀ line kept, keptLine line = some kept → kept <+: line :=
  fun _ _ => prefix_keptLine

theorem stripComments_sublist_code (content : List Char) :
    (stripComments content).Sublist (dropBlocks false content) := by
  have h := shortened_sublist keptLine_shortens (splitLines (dropBlocks false content))
  rwa [show joinLines (splitLines (dropBlocks false content)) = dropBlocks false content from
    joinWith_splitOn _ _] at h

theorem holdsBlock_of_strip {content : List Char} (h : HoldsBlock (stripComments content)) :
    HoldsBlock (dropBlocks false content) := by
  have h := holdsBlock_of_shortened keptLine_shortens (stripComments_eq content ▸ h)
  rwa [show joinLines (splitLines (dropBlocks false content)) = dropBlocks false content from
    joinWith_splitOn _ _] at h

/-- Lines that stay as they are come back from their text. -/
theorem strip_lines {kept : List (List Char)} (hfeed : ∀ k ∈ kept, '\n' ∉ k)
    (hk : ∀ k ∈ kept, keptLine k = some k) :
    joinLines ((splitLines (joinLines kept)).filterMap keptLine) = joinLines kept := by
  cases kept with
  | nil => rfl
  | cons k ks =>
    rw [show splitLines (joinLines (k :: ks)) = k :: ks from
      splitOn_joinWith (List.cons_ne_nil k ks) hfeed, List.filterMap_congr hk, List.filterMap_some]

/-- What is left without a block comment stays when comments are stripped again. -/
theorem strip_again {content : List Char} (h : ¬ HoldsBlock (stripComments content)) :
    stripComments (stripComments content) = stripComments content := by
  rw [stripComments_eq (stripComments content), dropBlocks_eq_self.mpr h, stripComments_eq]
  refine strip_lines (fun k hk => ?_) fun k hk => ?_
  · obtain ⟨line, hline, hkept⟩ := List.mem_filterMap.mp hk
    exact fun hmem => not_mem_of_mem_splitOn hline ((prefix_keptLine hkept).subset hmem)
  · obtain ⟨line, -, hkept⟩ := List.mem_filterMap.mp hk
    exact keptLine_again hkept

/-- A complete block comment is stripped. -/
theorem not_holdsBlock_of_strip_eq {content : List Char} (h : stripComments content = content) :
    ¬ HoldsBlock content := by
  rw [← dropBlocks_eq_self]
  refine (dropBlocks_sublist false content).eq_of_length_le ?_
  have hlength := (stripComments_sublist_code content).length_le
  rwa [h] at hlength

/-! ## What is left of comments -/

/-- Stripping leaves no line comment. A block comment can only be left where one was taken out
between a slash and a star, and where none is left stripping again changes nothing. -/
theorem comments_are_left_only_where_code_is_joined (content : List Char) :
    NoLineComment (stripComments content) ∧
    (¬ Glued content → ¬ HoldsBlock (stripComments content)) ∧
    (stripComments (stripComments content) = stripComments content ↔
      ¬ HoldsBlock (stripComments content)) := by
  refine ⟨?_, fun hg h => ?_, not_holdsBlock_of_strip_eq, strip_again⟩
  · rw [stripComments_eq, noLineComment_joinLines]
    intro l hl
    obtain ⟨line, -, hkept⟩ := List.mem_filterMap.mp hl
    exact noLineComment_keptLine hkept
  · exact hg (glued_of_dropBlocks (holdsBlock_of_strip h))

/-- A star right behind a block comment is not joined to a slash. -/
theorem a_star_behind_a_comment_joins_nothing :
    let content := "a /* b */* c // d".toList
    ¬ Glued content ∧ ¬ HoldsBlock (stripComments content) ∧
      stripComments content = "a * c".toList := by
  have hglued : ¬ Glued "a /* b */* c // d".toList := by
    rintro ⟨a, b, c, h⟩
    have hinfix : ['/', '/', '*'] <:+: "a /* b */* c // d".toList :=
      ⟨a, b ++ '*' :: '/' :: '*' :: c, by rw [h]; simp⟩
    exact absurd hinfix (by decide)
  exact ⟨hglued, (comments_are_left_only_where_code_is_joined _).2.1 hglued, by decide⟩

/-- What stood on both sides of a block comment can be a block comment when it is joined, and the
next stripping takes it out. -/
theorem a_comment_is_left_where_code_is_joined :
    let content := "const a = 1; //**/* y */".toList
    HoldsBlock (stripComments content) ∧
      stripComments content = "const a = 1; /* y */".toList ∧
      stripComments (stripComments content) ≠ stripComments content := by
  exact ⟨⟨"const a = 1; ".toList, " y ".toList, [], by decide⟩, by decide, by decide⟩

/-! ## What is left of code -/

/-- Without block comments, the lines that are blank or have code are left, in their order, each as
its code without the blanks at its end. Code ends in front of two slashes that follow no colon.
Whatever is stripped, the characters that are left stood in the text in that order. -/
theorem code_is_kept_line_by_line (content : List Char) :
    (¬ HoldsBlock content →
      stripComments content = joinLines (((splitLines content).filter fun line =>
        allBlank line || !allBlank (codeOf line)).map fun line => trimEnd (codeOf line))) ∧
    (∀ line, NoLineComment (codeOf line) ∧ (codeOf line = line ∨
      ∃ b, line = codeOf line ++ '/' :: '/' :: b ∧ (codeOf line).getLast? ≠ some ':')) ∧
    (∀ line, allBlank line = true → trimEnd (codeOf line) = []) ∧
    (¬ HoldsBlock content → NoLineComment content →
      splitLines (stripComments content) = (splitLines content).map trimEnd) ∧
    (stripComments content).Sublist content := by
  have hlines : ¬ HoldsBlock content → stripComments content =
      joinLines (((splitLines content).filter stays).map fun line => trimEnd (codeOf line)) := by
    intro h
    rw [stripComments_eq, dropBlocks_eq_self.mpr h, filterMap_keptLine]
  refine ⟨hlines, fun line => ⟨noLineComment_codeOf line, line_eq_codeOf line⟩, fun line h => ?_,
    fun hblock hline => ?_,
    (stripComments_sublist_code content).trans (dropBlocks_sublist false content)⟩
  · rw [codeOf_blank h]
    exact (trimEnd_nil_iff line).mpr h
  · have hcode : ∀ line ∈ splitLines content, codeOf line = line := by
      intro line hmem
      have hall : NoLineComment (joinLines (splitLines content)) ↔ _ := noLineComment_joinLines
      rw [show joinLines (splitLines content) = content from joinWith_splitOn _ _] at hall
      exact codeOf_eq_self (hall.mp hline line hmem)
    have hstays : (splitLines content).filter stays = splitLines content := by
      refine List.filter_eq_self.mpr fun line hmem => ?_
      rw [stays, hcode line hmem]
      exact Bool.or_not_self _
    rw [hlines hblock, hstays, List.map_congr_left fun line hmem => by rw [hcode line hmem]]
    have hne : (splitLines content).map trimEnd ≠ [] := by simp [splitLines, splitOn_ne_nil]
    refine splitOn_joinWith hne fun k hk => ?_
    obtain ⟨line, hmem, rfl⟩ := List.mem_map.mp hk
    exact fun h => not_mem_of_mem_splitOn hmem ((prefix_trimEnd line).subset h)

/-- An address and a blank line stay, a line of nothing but a comment goes. -/
theorem an_address_is_no_comment :
    let content := "u = \"http://x\"; // y\n\n  // z\n/* v".toList
    let plain := "u = http://x \n \nv".toList
    ¬ HoldsBlock content ∧ stripComments content = "u = \"http://x\";\n\n/* v".toList ∧
    ¬ HoldsBlock plain ∧ NoLineComment plain ∧
      splitLines (stripComments plain) = ["u = http://x".toList, [], "v".toList] := by
  have hcontent : ¬ HoldsBlock "u = \"http://x\"; // y\n\n  // z\n/* v".toList :=
    dropBlocks_eq_self.mp (by decide)
  have hplain : ¬ HoldsBlock "u = http://x \n \nv".toList := dropBlocks_eq_self.mp (by decide)
  have hline : NoLineComment "u = http://x \n \nv".toList := by
    have hsame : codeOf "u = http://x \n \nv".toList = "u = http://x \n \nv".toList := by decide
    exact hsame ▸ noLineComment_codeOf _
  refine ⟨hcontent, ?_, hplain, hline, ?_⟩
  · exact ((code_is_kept_line_by_line _).1 hcontent).trans (by decide)
  · exact ((code_is_kept_line_by_line _).2.2.2.1 hplain hline).trans (by decide)

end Sourcebook.Snippet
