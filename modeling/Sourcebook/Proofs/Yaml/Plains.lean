-- Texts that are written without quotes are read back. The spaces between two words are read as they
-- are, except where a line was ended: there they are read as one.
import Mathlib
import Sourcebook.Proofs.Yaml.Quotes

namespace Sourcebook.Yaml

variable {c : Char} {s t word : List Char} {n m : Nat} {w : Width}

/-! ## Places -/

namespace Cursor

theorem next_rest (x : Cursor) : x.next.rest = x.rest.tail := by
  unfold next
  split
  · next h => rw [h, List.tail_nil]
  · next h =>
    rw [h]
    split <;> rfl

theorem skip_rest (n : Nat) (x : Cursor) : (x.skip n).rest = x.rest.drop n := by
  induction n generalizing x with
  | zero => rfl
  | succ n ih => rw [skip, ih, next_rest, List.drop_tail]

theorem skip_succ (n : Nat) (x : Cursor) : x.skip (n + 1) = (x.skip n).next := by
  induction n generalizing x with
  | zero => rfl
  | succ n ih => rw [skip, ih, skip]

/-- Behind a space there is no start of a line. -/
theorem column_behind_space {x : Cursor} (h : x.rest = s ++ ' ' :: t) :
    1 ≤ (x.skip (s.length + 1)).column := by
  have hrest : (x.skip s.length).rest = ' ' :: t := by rw [skip_rest, h, List.drop_left]
  have hline : endsFileLine ' ' t = false := rfl
  rw [skip_succ, next, hrest]
  simp [hline]

theorem column_behind_line {x : Cursor} (h : x.rest = '\n' :: t) : (x.skip 1).column = 0 := by
  rw [skip, skip, next, h]
  rfl

end Cursor

/-! ## Words -/

/-- A word that stands without quotes: it starts no comment, and is no key. -/
structure Bare (word : List Char) : Prop where
  ne_nil : word ≠ []
  ordinary : ∀ c ∈ word, isGap c = false
  no_comment : word.head? ≠ some '#'
  no_key : word.getLast? ≠ some ':'

theorem plainWord_bare (hword : ∀ c ∈ word, isGap c = false) (hkey : word.getLast? ≠ some ':')
    (hs : gapAhead s = true) : plainWord false .core (word ++ s) = word := by
  induction word with
  | nil =>
    cases s with
    | nil => rfl
    | cons c s =>
      have hgap : isGap c = true := hs
      simp [plainWord, endsWord, hgap]
  | cons c word ih =>
    obtain ⟨hc, hmore⟩ := List.forall_mem_cons.mp hword
    have hends : endsWord false .core c (word ++ s) = false := by
      cases word with
      | nil =>
        have hcolon : c ≠ ':' := by simpa using hkey
        simp [endsWord, hc, hcolon]
      | cons d word =>
        have hd : isGap d = false := hmore d List.mem_cons_self
        simp [endsWord, hc, gapAhead, hd]
    have hlater : word.getLast? ≠ some ':' := by
      cases word with
      | nil => simp
      | cons d word => simpa [List.getLast?_cons_cons] using hkey
    rw [List.cons_append, plainWord, hends, if_neg Bool.false_ne_true, ih hmore hlater]

theorem not_space_of_gap (h : isGap c = false) : c ≠ ' ' ∧ c ≠ '\r' ∧ isBreak c = false := by
  simp only [isGap, Bool.or_eq_false_iff, decide_eq_false_iff_not] at h
  refine ⟨h.1.1, ?_, h.2⟩
  rintro rfl
  cases h.2

theorem plainBreaks_indent (hc : isGap c = false) (start : Bool) (hn : start = true → 0 < n) :
    plainBreaks start (List.replicate n ' ' ++ c :: s) = (some [], n) := by
  obtain ⟨hspace, hreturn, hbreak⟩ := not_space_of_gap hc
  induction n generalizing start with
  | zero =>
    cases start with
    | true => exact absurd (hn rfl) (lt_irrefl 0)
    | false => simp [plainBreaks, hspace, hreturn, hbreak]
  | succ n ih =>
    rw [List.replicate_succ, List.cons_append, plainBreaks, atDocumentMark_of_gap (.inl rfl)]
    simp [ih false (by simp)]

theorem plainGap_spaces (hc : isGap c = false) (n : Nat) :
    plainGap (List.replicate n ' ' ++ c :: s) = ⟨List.replicate n ' ', false, n⟩ := by
  obtain ⟨hspace, -, hbreak⟩ := not_space_of_gap hc
  have hall : ∀ d ∈ List.replicate n ' ', decide (d = ' ') = true := by
    intro d hd
    simp [List.eq_of_mem_replicate hd]
  unfold plainGap
  dsimp only
  rw [List.dropWhile_append_of_pos hall, List.takeWhile_append_of_pos hall,
    List.dropWhile_cons_of_neg (by simp [hspace]), List.takeWhile_cons_of_neg (by simp [hspace])]
  simp [hbreak]

/-- A gap in which a line ends is read as one space, however many there were. -/
theorem plainGap_line (hc : isGap c = false) (hm : 0 < m) (n : Nat) :
    plainGap (List.replicate n ' ' ++ '\n' :: (List.replicate m ' ' ++ c :: s)) =
      ⟨[' '], true, n + 1 + m⟩ := by
  have hall : ∀ d ∈ List.replicate n ' ', decide (d = ' ') = true := by
    intro d hd
    simp [List.eq_of_mem_replicate hd]
  have hbreak : isBreak '\n' = true := rfl
  unfold plainGap
  dsimp only
  rw [List.dropWhile_append_of_pos hall, List.dropWhile_cons_of_neg (by decide)]
  have hdrop : dropBreak ('\n' :: (List.replicate m ' ' ++ c :: s)) = List.replicate m ' ' ++ c :: s :=
    rfl
  dsimp only
  rw [if_pos hbreak, hdrop, plainBreaks_indent hc true fun _ => hm]
  simp [folded, breakChar]
  omega

/-! ## Words with their gaps -/

/-- The words behind the first one, each with the spaces before it, as they are written and as they
are read. Where a line was ended the spaces before the line end stay, unless there was only one. -/
inductive Laid (w : Width) : List (Nat × List Char) → List Char → List Char → Prop
  | nil : Laid w [] [] []
  | kept {gaps : List (Nat × List Char)} {text read : List Char} (k : Nat) (word : List Char) :
      Laid w gaps text read → Laid w ((k, word) :: gaps) (List.replicate (k + 1) ' ' ++ (word ++ text))
        (List.replicate (k + 1) ' ' ++ (word ++ read))
  | ended {gaps : List (Nat × List Char)} {text read : List Char} (k j : Nat) (word : List Char) :
      j = k + 1 ∨ (j = 0 ∧ k = 0) → Laid w gaps text read → Laid w ((k, word) :: gaps)
        (List.replicate j ' ' ++ '\n' :: (List.replicate w.indent ' ' ++ (word ++ text)))
        (' ' :: (word ++ read))

section Reading

variable {x : Cursor} {gap : PlainGap} {fuel : Nat}

theorem plainFrom_word (hword : Bare word) (hx : x.rest = word ++ s) (hs : gapAhead s = true) :
    plainFrom false .core 1 (fuel + 1) gap x =
      let next := (x.skip word.length).skip (plainGap s).size
      if (plainGap s).text.isEmpty || next.rest.head? == some '#' || next.column < 1 then
        ⟨gap.text ++ word, next, (plainGap s).broken⟩
      else
        let part := plainFrom false .core 1 fuel (plainGap s) next
        { part with text := gap.text ++ word ++ part.text } := by
  have hread : plainWord false .core x.rest = word := by
    rw [hx, plainWord_bare hword.ordinary hword.no_key hs]
  have hrest : (x.skip word.length).rest = s := by rw [Cursor.skip_rest, hx, List.drop_left]
  obtain ⟨d, more, rfl⟩ := List.exists_cons_of_ne_nil hword.ne_nil
  rw [plainFrom, hread]
  dsimp only
  rw [hrest]
  rfl

/-- A gap that ends with a space leads on to the next word. -/
theorem plainFrom_gap {before spaces word' : List Char} {g : PlainGap} (hword : Bare word)
    (hword' : Bare word') (hx : x.rest = word ++ (before ++ (word' ++ s)))
    (hspace : before = spaces ++ [' ']) (hgap : plainGap (before ++ (word' ++ s)) = g)
    (hsize : g.size = before.length) (htext : g.text ≠ [])
    (hahead : gapAhead (before ++ (word' ++ s)) = true) :
    ∃ next : Cursor, next.rest = word' ++ s ∧ plainFrom false .core 1 (fuel + 1) gap x =
      let part := plainFrom false .core 1 fuel g next
      { part with text := gap.text ++ word ++ part.text } := by
  have hbehind : (x.skip word.length).rest = before ++ (word' ++ s) := by
    rw [Cursor.skip_rest, hx, List.drop_left]
  have hnext : ((x.skip word.length).skip g.size).rest = word' ++ s := by
    rw [Cursor.skip_rest, hbehind, hsize, List.drop_left]
  have hcolumn : 1 ≤ ((x.skip word.length).skip g.size).column := by
    rw [hsize, hspace, List.length_append]
    rw [hspace, List.append_assoc] at hbehind
    exact Cursor.column_behind_space hbehind
  refine ⟨_, hnext, ?_⟩
  rw [plainFrom_word hword hx hahead, hgap]
  have hcomment : ((word' ++ s).head? == some '#') = false := by
    obtain ⟨d, more, rfl⟩ := List.exists_cons_of_ne_nil hword'.ne_nil
    simpa using hword'.no_comment
  dsimp only
  rw [hnext, hcomment, if_neg (by simp [htext]; omega)]

/-- The words of a plain text are read one by one up to the end of the file. -/
theorem plainFrom_laid (hw : 0 < w.indent) {gaps : List (Nat × List Char)} {text read : List Char}
    (hl : Laid w gaps text read) (hgaps : ∀ g ∈ gaps, Bare g.2) (hword : Bare word)
    (hx : x.rest = word ++ (text ++ ['\n'])) (hfuel : gaps.length < fuel) :
    ∃ y : Cursor, plainFrom false .core 1 fuel gap x = ⟨gap.text ++ (word ++ read), y, true⟩ ∧
      y.rest = [] := by
  induction hl generalizing word x gap fuel with
  | nil =>
    obtain ⟨fuel, rfl⟩ := Nat.exists_eq_succ_of_ne_zero (Nat.ne_zero_of_lt hfuel)
    have hend : plainGap ['\n'] = ⟨[' '], true, 1⟩ := rfl
    have hbehind : (x.skip word.length).rest = ['\n'] := by
      rw [Cursor.skip_rest, hx, List.drop_left]
      rfl
    refine ⟨(x.skip word.length).skip 1, ?_, ?_⟩
    · rw [plainFrom_word hword hx rfl]
      simp only [List.nil_append, hend, Cursor.column_behind_line hbehind]
      simp
    · rw [Cursor.skip_rest, hbehind]
      rfl
  | @kept gaps text read k word' _ ih =>
    obtain ⟨fuel, rfl⟩ := Nat.exists_eq_succ_of_ne_zero (Nat.ne_zero_of_lt hfuel)
    obtain ⟨hword', hmore⟩ := List.forall_mem_cons.mp hgaps
    obtain ⟨d, tail, rfl⟩ := List.exists_cons_of_ne_nil hword'.ne_nil
    have hgap := @plainGap_spaces d (tail ++ (text ++ ['\n']))
      (hword'.ordinary d List.mem_cons_self) (k + 1)
    have hx' : x.rest = word ++ (List.replicate (k + 1) ' ' ++ (d :: tail ++ (text ++ ['\n']))) := by
      rw [hx]
      simp
    obtain ⟨next, hnext, hfrom⟩ := @plainFrom_gap _ _ x gap fuel _ _ _ _ hword hword' hx'
      List.replicate_succ' hgap (by simp) (by simp) rfl
    obtain ⟨y, hy, hrest⟩ := ih hmore hword' hnext (Nat.lt_of_succ_lt_succ hfuel)
    refine ⟨y, ?_, hrest⟩
    rw [hfrom, hy]
    simp
  | @ended gaps text read k j word' hj _ ih =>
    obtain ⟨fuel, rfl⟩ := Nat.exists_eq_succ_of_ne_zero (Nat.ne_zero_of_lt hfuel)
    obtain ⟨hword', hmore⟩ := List.forall_mem_cons.mp hgaps
    obtain ⟨d, tail, rfl⟩ := List.exists_cons_of_ne_nil hword'.ne_nil
    obtain ⟨m, hm⟩ := Nat.exists_eq_succ_of_ne_zero hw.ne'
    have hspace : List.replicate j ' ' ++ '\n' :: List.replicate w.indent ' ' =
        (List.replicate j ' ' ++ '\n' :: List.replicate m ' ') ++ [' '] := by
      rw [hm, List.replicate_succ', List.append_assoc, List.cons_append]
    have hgap := @plainGap_line d (tail ++ (text ++ ['\n'])) w.indent
      (hword'.ordinary d List.mem_cons_self) hw j
    rw [← List.cons_append, ← List.append_assoc] at hgap
    have hx' : x.rest = word ++ ((List.replicate j ' ' ++ '\n' :: List.replicate w.indent ' ') ++
        (d :: tail ++ (text ++ ['\n']))) := by
      rw [hx]
      simp
    obtain ⟨next, hnext, hfrom⟩ := @plainFrom_gap _ _ x gap fuel _ _ _ _ hword hword' hx' hspace hgap
      (by simp; omega) (by simp) (by cases j <;> rfl)
    obtain ⟨y, hy, hrest⟩ := ih hmore hword' hnext (Nat.lt_of_succ_lt_succ hfuel)
    refine ⟨y, ?_, hrest⟩
    rw [hfrom, hy]
    simp

end Reading

/-! ## Lines that are ended -/

/-- The pieces of words behind the first one: spaces and a word in turn. -/
def laid (gaps : List (Nat × List Char)) : List (List Char) :=
  gaps.flatMap fun g => [List.replicate (g.1 + 1) ' ', g.2]

theorem head?_ne_space (h : Bare word) : word.head? ≠ some ' ' := by
  obtain ⟨d, more, rfl⟩ := List.exists_cons_of_ne_nil h.ne_nil
  have hspace := (not_space_of_gap (h.ordinary d List.mem_cons_self)).1
  simpa using hspace

theorem plainLines_word (hword : Bare word) (column : Nat) (rest : List (List Char)) :
    ∃ column', plainLines w column (word :: rest) =
      (if w.columns < column + word.length && w.indent < column then w.newLine else []) ++
        (word ++ plainLines w column' rest) := by
  have hspace : (word.head? == some ' ') = false := by simpa using head?_ne_space hword
  rw [plainLines, hspace, if_neg Bool.false_ne_true]
  split
  · exact ⟨w.indent + word.length, by simp⟩
  · exact ⟨column + word.length, by simp⟩

/-- Before a word the spaces stand as they are, with the end of a line behind them or without, or the
end of a line stands for a single one. -/
theorem plainLines_gap (hword : Bare word) (column k : Nat) (rest : List (List Char)) :
    ∃ column' gap, plainLines w column (List.replicate (k + 1) ' ' :: word :: rest) =
        gap ++ (word ++ plainLines w column' rest) ∧
      (gap = List.replicate (k + 1) ' ' ∨
        ∃ j, (j = k + 1 ∨ (j = 0 ∧ k = 0)) ∧ gap = List.replicate j ' ' ++ w.newLine) := by
  have hspace : ((List.replicate (k + 1) ' ').head? == some ' ') = true := rfl
  rw [plainLines, if_pos hspace]
  split
  · next hcut =>
    obtain ⟨column', hlines⟩ := @plainLines_word _ w hword w.indent rest
    refine ⟨column', w.newLine, ?_, .inr ⟨0, .inr ⟨rfl, ?_⟩, rfl⟩⟩
    · rw [hlines]
      simp
    · simp only [List.length_replicate, Bool.and_eq_true, decide_eq_true_eq] at hcut
      omega
  · obtain ⟨column', hlines⟩ :=
      @plainLines_word _ w hword (column + (List.replicate (k + 1) ' ').length) rest
    rw [hlines]
    split
    · exact ⟨column', _, (List.append_assoc ..).symm, .inr ⟨k + 1, .inl rfl, rfl⟩⟩
    · exact ⟨column', _, rfl, .inl rfl⟩

theorem plainLines_laid {gaps : List (Nat × List Char)} (hgaps : ∀ g ∈ gaps, Bare g.2) (column : Nat) :
    ∃ read, Laid w gaps (plainLines w column (laid gaps)) read := by
  induction gaps generalizing column with
  | nil => exact ⟨[], .nil⟩
  | cons g gaps ih =>
    obtain ⟨k, word⟩ := g
    obtain ⟨hword, hmore⟩ := List.forall_mem_cons.mp hgaps
    obtain ⟨column', gap, hlines, hgap⟩ := @plainLines_gap word w hword column k (laid gaps)
    obtain ⟨read, hread⟩ := ih hmore column'
    have hlaid : laid ((k, word) :: gaps) = List.replicate (k + 1) ' ' :: word :: laid gaps := rfl
    rw [hlaid, hlines]
    rcases hgap with rfl | ⟨j, hj, rfl⟩
    · exact ⟨_, .kept k word hread⟩
    · rw [Width.newLine, List.append_assoc, List.cons_append]
      exact ⟨_, .ended k j word hj hread⟩

/-! ## What is lost -/

/-- Two spaces before the end of a line. -/
def Torn (s : List Char) : Prop := [' ', ' ', '\n'] <:+: s

theorem torn_cons_of_ne (h : c ≠ ' ') : Torn (c :: s) ↔ Torn s := by
  unfold Torn
  rw [List.infix_cons_iff, or_iff_right]
  intro hprefix
  exact h (List.cons_prefix_cons.mp hprefix).1.symm

theorem torn_word (hword : ∀ c ∈ word, c ≠ ' ') : Torn (word ++ s) ↔ Torn s := by
  induction word with
  | nil => rfl
  | cons c word ih =>
    obtain ⟨hc, hmore⟩ := List.forall_mem_cons.mp hword
    rw [List.cons_append, torn_cons_of_ne hc, ih hmore]

/-- Spaces that are followed by no end of a line are not torn. -/
theorem torn_spaces (hspace : c ≠ ' ') (hline : c ≠ '\n') (n : Nat) :
    Torn (List.replicate n ' ' ++ c :: s) ↔ Torn (c :: s) := by
  induction n with
  | zero => rfl
  | succ n ih =>
    rw [List.replicate_succ, List.cons_append, Torn, List.infix_cons_iff, or_iff_right]
    · exact ih
    · intro hprefix
      have htail := (List.cons_prefix_cons.mp hprefix).2
      cases n with
      | zero => exact hspace (List.cons_prefix_cons.mp htail).1.symm
      | succ n =>
        have hlast := (List.cons_prefix_cons.mp htail).2
        cases n with
        | zero => exact hline (List.cons_prefix_cons.mp hlast).1.symm
        | succ n => exact absurd (List.cons_prefix_cons.mp hlast).1 (by decide)

/-- Before the end of a line one space is not torn, and more spaces are. -/
theorem torn_line (n : Nat) : Torn (List.replicate n ' ' ++ '\n' :: s) ↔ 2 ≤ n ∨ Torn s := by
  match n with
  | 0 => simpa using torn_cons_of_ne (by decide)
  | 1 =>
    have hprefix : ¬ [' ', ' ', '\n'] <+: ' ' :: '\n' :: s := fun h =>
      absurd (List.cons_prefix_cons.mp (List.cons_prefix_cons.mp h).2).1 (by decide)
    rw [show List.replicate 1 ' ' ++ '\n' :: s = ' ' :: '\n' :: s from rfl, Torn, List.infix_cons_iff,
      or_iff_right hprefix, ← Torn, torn_cons_of_ne (by decide)]
    simp
  | n + 2 =>
    refine iff_of_true ?_ (.inl (by omega))
    refine ⟨List.replicate n ' ', s, ?_⟩
    rw [List.replicate_add]
    simp [List.replicate]

theorem bare_head (h : Bare word) : ∃ c more, word = c :: more ∧ c ≠ ' ' ∧ c ≠ '\n' := by
  obtain ⟨c, more, rfl⟩ := List.exists_cons_of_ne_nil h.ne_nil
  obtain ⟨hspace, -, hbreak⟩ := not_space_of_gap (h.ordinary c List.mem_cons_self)
  refine ⟨c, more, rfl, hspace, ?_⟩
  rintro rfl
  cases hbreak

/-- The words come back with their spaces unless spaces were torn by the end of a line. -/
theorem Laid.read_eq_iff {gaps : List (Nat × List Char)} {text read : List Char}
    (hl : Laid w gaps text read) (hgaps : ∀ g ∈ gaps, Bare g.2) :
    read = (laid gaps).flatten ↔ ¬ Torn (text ++ ['\n']) := by
  induction hl with
  | nil => exact iff_of_true rfl (show ¬ [' ', ' ', '\n'] <:+: ['\n'] by decide)
  | @kept gaps text read k word _ ih =>
    obtain ⟨hword, hmore⟩ := List.forall_mem_cons.mp hgaps
    obtain ⟨c, more, rfl, hspace, hline⟩ := bare_head hword
    have hplain : ∀ d ∈ c :: more, d ≠ ' ' := fun d hd => (not_space_of_gap (hword.ordinary d hd)).1
    have hflat : (laid ((k, c :: more) :: gaps)).flatten =
        List.replicate (k + 1) ' ' ++ (c :: more ++ (laid gaps).flatten) := by
      simp [laid]
    have htorn : Torn (List.replicate (k + 1) ' ' ++ (c :: more ++ text) ++ ['\n']) ↔
        Torn (text ++ ['\n']) := by
      rw [List.append_assoc, List.append_assoc, List.cons_append, torn_spaces hspace hline,
        ← List.cons_append, torn_word hplain]
    rw [hflat, htorn, ← ih hmore, List.append_cancel_left_eq, List.append_cancel_left_eq]
  | @ended gaps text read k j word hj _ ih =>
    obtain ⟨hword, hmore⟩ := List.forall_mem_cons.mp hgaps
    obtain ⟨c, more, rfl, hspace, hline⟩ := bare_head hword
    have hplain : ∀ d ∈ c :: more, d ≠ ' ' := fun d hd => (not_space_of_gap (hword.ordinary d hd)).1
    have hflat : (laid ((k, c :: more) :: gaps)).flatten =
        ' ' :: (List.replicate k ' ' ++ (c :: more ++ (laid gaps).flatten)) := by
      simp [laid, List.replicate_succ]
    have htorn : Torn (List.replicate j ' ' ++ '\n' :: (List.replicate w.indent ' ' ++
        (c :: more ++ text)) ++ ['\n']) ↔ 2 ≤ j ∨ Torn (text ++ ['\n']) := by
      rw [List.append_assoc, List.cons_append, torn_line, List.append_assoc, List.append_assoc,
        List.cons_append, torn_spaces hspace hline, ← List.cons_append, torn_word hplain]
    rw [hflat, htorn, not_or, ← ih hmore, List.cons_eq_cons, eq_self, true_and]
    cases k with
    | zero =>
      have hone : ¬ 2 ≤ j := by omega
      simp [hone]
    | succ k =>
      have htwo : 2 ≤ j := by omega
      simp [htwo, List.replicate_succ, hspace]

/-! ## Plain texts -/

/-- Without indicators in a text there are none behind a part of it. -/
theorem hasIndicator_behind {b : Bool} (h : hasIndicator b (s ++ t) = false) :
    hasIndicator ((s.getLast?.map isWhite).getD b) t = false := by
  induction s generalizing b with
  | nil => exact h
  | cons c s ih =>
    rw [List.cons_append, hasIndicator, Bool.or_eq_false_iff] at h
    have hmore := ih h.2
    cases s with
    | nil => exact hmore
    | cons d s =>
      have hlast := List.getLast?_eq_some_getLast (List.cons_ne_nil d s)
      rw [hlast] at hmore
      rw [List.getLast?_cons_cons, hlast]
      exact hmore

theorem bare_of_indicator (hne : word ≠ []) (hword : ∀ c ∈ word, isGap c = false)
    (h : hasIndicator true (word ++ s) = false) (hs : whiteAhead s = true) : Bare word where
  ne_nil := hne
  ordinary := hword
  no_comment := by
    obtain ⟨c, more, rfl⟩ := List.exists_cons_of_ne_nil hne
    rw [List.head?_cons, ne_eq, Option.some.injEq]
    rintro rfl
    simp [hasIndicator] at h
  no_key := by
    intro hlast
    obtain ⟨front, rfl⟩ := List.getLast?_eq_some_iff.mp hlast
    rw [List.append_assoc] at h
    have hcolon := hasIndicator_behind h
    simp [hasIndicator, hs] at hcolon

/-- A text that neither starts nor ends with a space is a word with more words behind it, each with
spaces before it. -/
theorem exists_gaps {ps : List (List Char)} (hg : Grouped (fun c => decide (c = ' ')) ps)
    (hne : ps ≠ []) (hhead : ps.flatten.head? ≠ some ' ') (hlast : ps.flatten.getLast? ≠ some ' ')
    (hgap : ∀ c ∈ ps.flatten, c ≠ ' ' → isGap c = false)
    (hind : hasIndicator true ps.flatten = false) :
    ∃ word gaps, ps = word :: laid gaps ∧ Bare word ∧ ∀ g ∈ gaps, Bare g.2 := by
  induction hlen : ps.length using Nat.strong_induction_on generalizing ps with
  | _ n ih =>
    subst hlen
    cases hg with
    | nil => exact absurd rfl hne
    | @cons c run rest hrun hnext hrest =>
      have hc : c ≠ ' ' := by simpa using hhead
      have hword : ∀ d ∈ c :: run, isGap d = false := by
        intro d hd
        refine hgap d (by rw [List.flatten_cons]; exact List.mem_append_left _ hd) ?_
        rcases List.mem_cons.mp hd with rfl | hd
        · exact hc
        · simpa [hc] using hrun d hd
      rw [List.flatten_cons] at hind hlast
      cases hrest with
      | nil =>
        exact ⟨c :: run, [], rfl, bare_of_indicator (List.cons_ne_nil _ _) hword hind rfl, by simp⟩
      | @cons d more later hmore hnext' hlater =>
        obtain rfl : d = ' ' := by simpa [hc] using hnext d more later rfl
        have hspaces : ' ' :: more = List.replicate (more.length + 1) ' ' :=
          (Grouped.cons hmore hnext' hlater).first_eq (by simp)
        have hfirst : Bare (c :: run) := bare_of_indicator (List.cons_ne_nil _ _) hword hind rfl
        -- The word and its spaces end with a space.
        obtain ⟨front, hfront⟩ : ∃ front, c :: run ++ ((' ' :: more) :: later).flatten =
            (front ++ [' ']) ++ later.flatten :=
          ⟨c :: run ++ List.replicate more.length ' ', by
            rw [List.flatten_cons, hspaces, List.replicate_succ']
            simp⟩
        rw [hfront] at hind hlast
        have hbehind : hasIndicator true later.flatten = false := by
          simpa [isWhite] using hasIndicator_behind hind
        rw [List.getLast?_append] at hlast
        have hlater' : later ≠ [] := by
          rintro rfl
          simp at hlast
        have hend : later.flatten.getLast? ≠ some ' ' := by
          intro he
          rw [he] at hlast
          exact hlast rfl
        have hstart : later.flatten.head? ≠ some ' ' := by
          cases hlater with
          | nil => exact absurd rfl hlater'
          | cons _ _ _ => simpa using hnext' _ _ _ rfl
        obtain ⟨word, gaps, rfl, hbare, hall⟩ := ih later.length (by simp) hlater hlater' hstart
          hend (fun e he => hgap e (by simp [List.mem_flatten.mp he])) hbehind rfl
        refine ⟨c :: run, (more.length, word) :: gaps, by rw [hspaces]; rfl, hfirst, ?_⟩
        exact List.forall_mem_cons.mpr ⟨hbare, hall⟩

end Sourcebook.Yaml
