-- Texts that are written in quotes are read back. Double quotes keep every text. In single quotes a
-- run of breaks is folded when it is read, and that keeps all breaks but the mark of a next line.
import Mathlib
import Sourcebook.Yaml.Scalar

namespace Sourcebook.Yaml

variable {c : Char} {s rest : List Char} {n : Nat}

/-! ## Blank lines -/

/-- A text that goes on with a character that is neither blank nor a break. -/
def Solid (s : List Char) : Prop := ∃ c t, s = c :: t ∧ c ≠ ' ' ∧ c ≠ '\t' ∧ isBreak c = false

theorem eq_of_isTextBreak (h : isTextBreak c = true) :
    c = '\n' ∨ c = '\x85' ∨ c = '\u2028' ∨ c = '\u2029' := by
  simp only [isTextBreak, isBreak, Bool.and_eq_true, Bool.or_eq_true, decide_eq_true_eq,
    bne_iff_ne] at h
  obtain ⟨((((h | h) | h) | h) | h), hr⟩ := h
  · exact .inl h
  · exact absurd h hr
  · exact .inr (.inl h)
  · exact .inr (.inr (.inl h))
  · exact .inr (.inr (.inr h))

theorem isBreak_of_isTextBreak (h : isTextBreak c = true) : isBreak c = true :=
  (Bool.and_eq_true_iff.mp h).1

/-- A break, or a space, is not the start of a document mark. -/
theorem atDocumentMark_of_gap (h : c = ' ' ∨ isTextBreak c = true) :
    atDocumentMark (c :: s) = false := by
  have hc : c ≠ '-' ∧ c ≠ '.' := by
    rcases h with rfl | h
    · decide
    · rcases eq_of_isTextBreak h with rfl | rfl | rfl | rfl <;> decide
  have hmark : ∀ mark, c ≠ mark → documentMark mark (c :: s) = false := by
    intro mark hne
    unfold documentMark
    split
    · next heq =>
      obtain rfl := (List.cons.inj heq).1
      simp [hne]
    · rfl
  simp [atDocumentMark, hmark _ hc.1, hmark _ hc.2]

theorem blankLines_solid (h : Solid s) : blankLines false s = .ok ([], s) := by
  obtain ⟨c, t, rfl, hspace, htab, hbreak⟩ := h
  have hreturn : c ≠ '\r' := by
    rintro rfl
    cases hbreak
  simp [blankLines, hspace, htab, hbreak, hreturn]

theorem blankLines_spaces (h : Solid s) (n : Nat) :
    blankLines false (List.replicate n ' ' ++ s) = .ok ([], s) := by
  induction n with
  | zero => exact blankLines_solid h
  | succ n ih => simpa [List.replicate_succ, blankLines] using ih

theorem blankLines_indent (h : Solid s) (hn : 0 < n) :
    blankLines true (List.replicate n ' ' ++ s) = .ok ([], s) := by
  obtain ⟨m, rfl⟩ := Nat.exists_eq_succ_of_ne_zero hn.ne'
  rw [List.replicate_succ, List.cons_append, blankLines, atDocumentMark_of_gap (.inl rfl)]
  simpa using blankLines_spaces h m

/-- Breaks are noted one by one, and the indentation behind them is passed over. -/
theorem blankLines_breaks (h : Solid s) (hn : 0 < n) {breaks : List Char}
    (hb : ∀ d ∈ breaks, isTextBreak d = true) :
    blankLines true (breaks ++ (List.replicate n ' ' ++ s)) = .ok (breaks.map breakChar, s) := by
  induction breaks with
  | nil => exact blankLines_indent h hn
  | cons d breaks ih =>
    have hd := hb d List.mem_cons_self
    rw [List.cons_append, blankLines, atDocumentMark_of_gap (.inr hd)]
    have hne : (d = ' ' ∨ d = '\t') = False ∧ (d = '\r') = False := by
      rcases eq_of_isTextBreak hd with rfl | rfl | rfl | rfl <;> decide
    simp only [Bool.and_false, Bool.false_eq_true, if_false, Bool.or_eq_true, decide_eq_true_eq,
      hne.1, hne.2, Bool.and_eq_true, false_and, isBreak_of_isTextBreak hd, if_true,
      ih fun e he => hb e (List.mem_cons_of_mem _ he)]
    rfl

/-! ## Space in quotes -/

theorem quotedSpace_spaces (h : Solid s) (n : Nat) :
    quotedSpace (List.replicate n ' ' ++ s) = .ok (List.replicate n ' ', s) := by
  obtain ⟨c, t, rfl, hspace, htab, hbreak⟩ := h
  have hall : ∀ d ∈ List.replicate n ' ', (decide (d = ' ') || decide (d = '\t')) = true := by
    intro d hd
    simp [List.eq_of_mem_replicate hd]
  unfold quotedSpace
  dsimp only
  rw [List.dropWhile_append_of_pos hall, List.takeWhile_append_of_pos hall,
    List.dropWhile_cons_of_neg (by simp [hspace, htab]),
    List.takeWhile_cons_of_neg (by simp [hspace, htab])]
  simp [hbreak]

theorem quotedSpace_breaks (h : Solid s) (hn : 0 < n) {more : List Char} (hc : isTextBreak c = true)
    (hmore : ∀ d ∈ more, isTextBreak d = true) :
    quotedSpace (c :: (more ++ (List.replicate n ' ' ++ s))) =
      .ok (folded (breakChar c) (more.map breakChar), s) := by
  have hne : c ≠ ' ' ∧ c ≠ '\t' ∧ c ≠ '\r' := by
    rcases eq_of_isTextBreak hc with rfl | rfl | rfl | rfl <;> decide
  have hdrop : ∀ t, dropBreak (c :: t) = t := by
    intro t
    unfold dropBreak
    split
    · next heq => exact absurd (List.cons.inj heq).1 hne.2.2
    · next heq => exact (List.cons.inj heq).2.symm
    · next heq => cases heq
  unfold quotedSpace
  dsimp only
  rw [List.dropWhile_cons_of_neg (by simp [hne.1, hne.2.1])]
  simp only [isBreak_of_isTextBreak hc, if_true, hdrop, blankLines_breaks h hn hmore]
  rfl

/-! ## Double quotes -/

/-- A written escape names its character. -/
def Names (c : Char) (e : List Char) : Prop := ∀ rest, escape (e ++ rest) = .ok ([c], rest)

/-- The letter of an escape is read as the character, and may stand on a line. -/
theorem letter_of_escape {d : Char} (h : escapeLetter? c = some d) :
    escapeChar? d = some c ∧ d ≠ '\n' ∧ isAllowed d = true := by
  have htable : ∀ p ∈ [('\x00', '0'), ('\x07', 'a'), ('\x08', 'b'), ('\t', 't'), ('\n', 'n'),
      ('\x0b', 'v'), ('\x0c', 'f'), ('\r', 'r'), ('\x1b', 'e'), ('"', '"'), ('\\', '\\'),
      ('\x85', 'N'), ('\u2028', 'L'), ('\u2029', 'P')],
      escapeChar? p.2 = some p.1 ∧ p.2 ≠ '\n' ∧ isAllowed p.2 = true := by decide
  obtain ⟨front, back, htext, -⟩ := List.lookup_eq_some_iff.mp h
  exact htable (c, d) (htext ▸ by simp)

theorem names_of_letter {d : Char} (h : escapeLetter? c = some d) : Names c [d] := by
  intro rest
  simp only [List.cons_append, List.nil_append, escape, (letter_of_escape h).1]

/-- The digits behind the letter of a width are read back as the number of a character. -/
def spells (c : Char) : List Char → Bool
  | e :: ds =>
    (escapeChar? e).isNone && escapeWidth? e == some ds.length && ds.all isHexDigit
      && Text.ofDigits 16 (ds.map hexDigit) == c.toNat
  | [] => false

theorem names_of_spells {e : List Char} (h : spells c e = true) : Names c e := by
  cases e with
  | nil => cases h
  | cons e ds =>
    simp only [spells, Bool.and_eq_true, Option.isNone_iff_eq_none, beq_iff_eq] at h
    obtain ⟨⟨⟨hletter, hwidth⟩, hdigits⟩, hcode⟩ := h
    intro rest
    have hpoint : codePoint ds.length (ds ++ rest) = .ok c := by
      have hvalid : c.toNat < 0x110000 := c.valid.elim (Nat.lt_trans · (by decide)) (·.2)
      simp only [codePoint, List.take_left, lt_irrefl, decide_false, hdigits, hcode, Bool.not_true,
        Bool.or_self, Bool.false_eq_true, if_false]
      rw [if_pos (by omega), Char.ofNat_toNat]
    simp only [List.cons_append, escape, hletter, hwidth, hpoint]
    simp only [bind, Except.bind, pure, Except.pure, List.drop_left]

/-- The characters that are escaped by their number. -/
def numbered (c : Char) : Bool :=
  (escapeLetter? c).isNone && needsEscape c

theorem spells_of_numbered (h : numbered c = true) : spells c (doubleChar c).tail = true ∧
    (doubleChar c).head? = some '\\' := by
  have hlow : ∀ m < 0xA0, numbered (Char.ofNat m) = true → spells (Char.ofNat m)
      (doubleChar (Char.ofNat m)).tail = true ∧ (doubleChar (Char.ofNat m)).head? = some '\\' := by
    decide +kernel
  by_cases hc : c.toNat < 0xA0
  · rw [← Char.ofNat_toNat c] at h ⊢
    exact hlow c.toNat hc (by simpa using h)
  · have hhigh : c = '\uFEFF' ∨ c = '\uFFFE' ∨ c = '\uFFFF' := by
      simp only [numbered, needsEscape, Bool.and_eq_true, Bool.or_eq_true, decide_eq_true_eq] at h
      obtain ⟨-, (((h | h) | h) | h) | h⟩ := h
      · omega
      · omega
      · exact .inl h
      · exact .inr (.inl h)
      · exact .inr (.inr h)
    rcases hhigh with rfl | rfl | rfl <;> decide +kernel

theorem doubleChar_of_letter {d : Char} (h : escapeLetter? c = some d) : doubleChar c = ['\\', d] := by
  unfold doubleChar
  rw [h]

theorem doubleChar_of_plain (hletter : escapeLetter? c = none) (hneeds : needsEscape c = false) :
    doubleChar c = [c] := by
  unfold doubleChar
  rw [hletter]
  simp [hneeds]

/-- A character in double quotes stands there as it is, or as an escape that names it. -/
theorem doubleChar_cases (c : Char) :
    (doubleChar c = [c] ∧ c ≠ '"' ∧ c ≠ '\\' ∧ c ≠ '\t' ∧ isBreak c = false) ∨
      ∃ e, doubleChar c = '\\' :: e ∧ Names c e := by
  cases hletter : escapeLetter? c with
  | some d =>
    exact .inr ⟨[d], doubleChar_of_letter hletter, names_of_letter hletter⟩
  | none =>
    cases hneeds : needsEscape c with
    | false =>
      have hne : ∀ d, escapeLetter? d ≠ none → c ≠ d := fun d hd he => hd (he ▸ hletter)
      have hbreak : isBreak c = false := by
        simp only [isBreak, hne '\n' (by decide), hne '\r' (by decide), hne '\x85' (by decide),
          hne '\u2028' (by decide), hne '\u2029' (by decide), decide_false, Bool.or_self]
      exact .inl ⟨doubleChar_of_plain hletter hneeds, hne _ (by decide), hne _ (by decide),
        hne _ (by decide), hbreak⟩
    | true =>
      obtain ⟨hspells, hhead⟩ := @spells_of_numbered c (by simp [numbered, hletter, hneeds])
      refine .inr ⟨(doubleChar c).tail, ?_, names_of_spells hspells⟩
      exact (List.cons_head?_tail hhead).symm

theorem solid_double {t : List Char} (h : s.head? ≠ some ' ') :
    Solid (s.flatMap doubleChar ++ '"' :: t) := by
  cases s with
  | nil => exact ⟨'"', t, rfl, by decide, by decide, by decide⟩
  | cons c s =>
    rw [List.flatMap_cons]
    rcases doubleChar_cases c with ⟨he, -, -, htab, hbreak⟩ | ⟨e, he, -⟩
    · rw [he]
      exact ⟨c, _, rfl, by simpa using h, htab, hbreak⟩
    · rw [he]
      exact ⟨'\\', _, rfl, by decide, by decide, by decide⟩

/-- A text starts with a run of a character, which may be empty. -/
theorem exists_run (c : Char) (s : List Char) :
    ∃ k u, s = List.replicate k c ++ u ∧ u.head? ≠ some c := by
  induction s with
  | nil => exact ⟨0, [], rfl, by simp⟩
  | cons d s ih =>
    by_cases hd : d = c
    · obtain ⟨k, u, rfl, hu⟩ := ih
      exact ⟨k + 1, u, by rw [hd, List.replicate_succ, List.cons_append], hu⟩
    · exact ⟨0, d :: s, rfl, by simpa using hd⟩

theorem flatMap_doubleChar_spaces (k : Nat) :
    (List.replicate k ' ').flatMap doubleChar = List.replicate k ' ' := by
  induction k with
  | zero => rfl
  | succ k ih =>
    rw [List.replicate_succ, List.flatMap_cons, ih]
    rfl

/-- Double quotes give every text back. Spaces are read run by run, everything else character by
character. -/
theorem doubleQuoted_written (t : List Char) {fuel : Nat} (hfuel : s.length < fuel) :
    doubleQuoted fuel (s.flatMap doubleChar ++ '"' :: t) = .ok (s, t) := by
  induction hlen : s.length using Nat.strong_induction_on generalizing s fuel with
  | _ m ih =>
    subst hlen
    obtain ⟨fuel, rfl⟩ := Nat.exists_eq_succ_of_ne_zero (Nat.ne_zero_of_lt hfuel)
    cases s with
    | nil => simp [doubleQuoted]
    | cons c s =>
      have hrest : ∀ u : List Char, u.length < (c :: s).length → doubleQuoted fuel
          (u.flatMap doubleChar ++ '"' :: t) = .ok (u, t) := fun u hu => ih u.length hu (by omega) rfl
      by_cases hspace : c = ' '
      · subst hspace
        obtain ⟨k, u, rfl, hu⟩ := exists_run ' ' s
        have hwritten : (' ' :: (List.replicate k ' ' ++ u)).flatMap doubleChar ++ '"' :: t =
            ' ' :: (List.replicate k ' ' ++ (u.flatMap doubleChar ++ '"' :: t)) := by
          rw [List.flatMap_cons, List.flatMap_append, flatMap_doubleChar_spaces,
            show doubleChar ' ' = [' '] from rfl]
          simp
        have hspaces := quotedSpace_spaces (solid_double (t := t) hu) (k + 1)
        rw [List.replicate_succ, List.cons_append] at hspaces
        have hu' := hrest u (by simp)
        rw [hwritten, doubleQuoted]
        simp [hspaces, hu', bind, Except.bind, pure, Except.pure]
      · have hs := hrest s (by simp)
        rw [List.flatMap_cons, List.append_assoc]
        rcases doubleChar_cases c with ⟨he, hquote, hslash, htab, hbreak⟩ | ⟨e, he, hnames⟩
        · rw [he, List.singleton_append, doubleQuoted]
          simp [hquote, hslash, hspace, htab, hbreak, hs, bind, Except.bind, pure, Except.pure]
        · rw [he, List.cons_append, doubleQuoted]
          simp [hnames _, hs, bind, Except.bind, pure, Except.pure]

/-! ## Runs of characters -/

/-- Runs of characters on which a test agrees, each as long as it can be. -/
inductive Grouped {α : Type} (f : Char → α) : List (List Char) → Prop
  | nil : Grouped f []
  | cons {c : Char} {run : List Char} {rest : List (List Char)} : (∀ d ∈ run, f d = f c) →
      (∀ d more later, rest = (d :: more) :: later → f d ≠ f c) → Grouped f rest →
      Grouped f ((c :: run) :: rest)

theorem grouped_of {α : Type} [DecidableEq α] (f : Char → α) {g : List Char → List (List Char)}
    (hnil : g [] = [])
    (hcons : ∀ c s, g (c :: s) = match g s with
      | (d :: run) :: rest =>
        if f d == f c then (c :: d :: run) :: rest else [c] :: (d :: run) :: rest
      | rest => [c] :: rest) (s : List Char) : Grouped f (g s) ∧ (g s).flatten = s := by
  induction s with
  | nil =>
    rw [hnil]
    exact ⟨.nil, rfl⟩
  | cons c s ih =>
    rw [hcons]
    generalize g s = runs at ih ⊢
    obtain ⟨hgrouped, hflat⟩ := ih
    cases hgrouped with
    | nil =>
      obtain rfl : s = [] := hflat.symm
      exact ⟨.cons (by simp) (by simp) .nil, rfl⟩
    | @cons d run rest hrun hnext hrest =>
      dsimp only
      by_cases hd : f d = f c
      · rw [if_pos (by simpa using hd)]
        refine ⟨.cons ?_ ?_ hrest, by rw [← hflat]; rfl⟩
        · intro e he
          rcases List.mem_cons.mp he with rfl | he
          · exact hd
          · exact (hrun e he).trans hd
        · rw [← hd]
          exact hnext
      · rw [if_neg (by simpa using hd)]
        refine ⟨.cons (by simp) ?_ (.cons hrun hnext hrest), by rw [← hflat]; rfl⟩
        intro e more later he
        obtain ⟨hhead, -⟩ := List.cons.inj he
        exact (List.cons.inj hhead).1 ▸ hd

theorem grouped_pieces (s : List Char) : Grouped pieceClass (pieces s) ∧ (pieces s).flatten = s :=
  grouped_of pieceClass rfl (fun _ _ => rfl) s

theorem grouped_runs (p : Char → Bool) (s : List Char) :
    Grouped p (runs p s) ∧ (runs p s).flatten = s :=
  grouped_of p rfl (fun _ _ => rfl) s

/-- A run of a character that the test tells from all others. -/
theorem Grouped.first_eq {α : Type} {f : Char → α} {run : List Char} {later : List (List Char)}
    (h : Grouped f ((c :: run) :: later)) (hc : ∀ d, f d = f c → d = c) :
    c :: run = List.replicate (run.length + 1) c := by
  cases h with
  | cons hrun _ _ =>
    rw [List.replicate_succ]
    exact congrArg _ (List.eq_replicate_of_mem fun d hd => hc d (hrun d hd))

/-! ## Single quotes -/

/-- A text in single quotes is read from here on, in a number of steps at most. -/
def Reads (steps : Nat) (s text rest : List Char) : Prop :=
  ∀ fuel, steps < fuel → singleQuoted fuel s = .ok (text, rest)

theorem Reads.mono {steps more : Nat} {s text rest : List Char} (h : Reads steps s text rest)
    (hle : steps ≤ more) : Reads more s text rest :=
  fun fuel hfuel => h fuel (Nat.lt_of_le_of_lt hle hfuel)

theorem reads_end (h : s.head? ≠ some '\'') : Reads 0 ('\'' :: s) [] s := by
  intro fuel hfuel
  obtain ⟨fuel, rfl⟩ := Nat.exists_eq_succ_of_ne_zero hfuel.ne'
  unfold singleQuoted
  rw [if_pos rfl]
  split
  · exact absurd rfl h
  · rfl

/-- What stands in single quotes as it is. -/
def Literal (c : Char) : Prop := c ≠ '\'' ∧ c ≠ ' ' ∧ c ≠ '\t' ∧ isBreak c = false

variable {m : Nat} {text : List Char}

theorem Reads.word {word : List Char} (hword : ∀ c ∈ word, Literal c) (h : Reads m s text rest) :
    Reads (m + word.length) (word ++ s) (word ++ text) rest := by
  induction word with
  | nil => exact h
  | cons c word ih =>
    obtain ⟨hquote, hspace, htab, hbreak⟩ := hword c List.mem_cons_self
    have hmore := ih fun d hd => hword d (List.mem_cons_of_mem _ hd)
    intro fuel hfuel
    obtain ⟨fuel, rfl⟩ := Nat.exists_eq_succ_of_ne_zero (Nat.ne_zero_of_lt hfuel)
    unfold singleQuoted
    simp only [List.cons_append, hquote, hspace, htab, hbreak, if_false, decide_false, Bool.or_self,
      Bool.false_eq_true]
    rw [hmore fuel (by simp only [List.length_cons] at hfuel; omega)]
    rfl

theorem Reads.space {space u : List Char} (hc : c = ' ' ∨ isTextBreak c = true)
    (hspace : quotedSpace (c :: u) = .ok (space, s)) (h : Reads m s text rest) :
    Reads (m + 1) (c :: u) (space ++ text) rest := by
  intro fuel hfuel
  obtain ⟨fuel, rfl⟩ := Nat.exists_eq_succ_of_ne_zero (Nat.ne_zero_of_lt hfuel)
  have hquote : c ≠ '\'' := by
    rcases hc with rfl | hc
    · decide
    · rcases eq_of_isTextBreak hc with rfl | rfl | rfl | rfl <;> decide
  have hgap : (decide (c = ' ') || decide (c = '\t') || isBreak c) = true := by
    rcases hc with rfl | hc
    · rfl
    · simp [isBreak_of_isTextBreak hc]
  unfold singleQuoted
  rw [if_neg hquote, if_pos hgap, hspace]
  dsimp only [bind, Except.bind]
  rw [h fuel (by omega)]
  rfl

/-- What is read of a piece: breaks are folded. -/
def kept : List Char → List Char
  | [] => []
  | c :: more =>
    if isTextBreak c then folded (breakChar c) (more.map breakChar) else c :: more

/-- A space and a break do not stand side by side. -/
def Apart (a b : Char) : Prop := ¬ (a = ' ' ∧ isTextBreak b = true) ∧ ¬ (isTextBreak a = true ∧ b = ' ')

theorem isChain_of_hasBrokenSpace (h : hasBrokenSpace s = false) : s.IsChain Apart := by
  induction s with
  | nil => exact .nil
  | cons a s ih =>
    cases s with
    | nil => exact .singleton a
    | cons b s =>
      simp only [hasBrokenSpace, Bool.or_eq_false_iff, Bool.and_eq_false_iff,
        decide_eq_false_iff_not] at h
      refine .cons_cons ⟨?_, ?_⟩ (ih h.2)
      · rintro ⟨ha, hb⟩
        rcases h.1.1 with h | h
        · exact h ha
        · rw [hb] at h
          cases h
      · rintro ⟨ha, hb⟩
        rcases h.1.2 with h | h
        · rw [ha] at h
          cases h
        · exact h hb

theorem pieceClass_space : pieceClass c = pieceClass ' ' ↔ c = ' ' := by
  unfold pieceClass
  by_cases h : c = ' '
  · simp [h]
  · simp only [h, if_false, if_true, iff_false]
    split <;> decide

theorem pieceClass_break {d : Char} (hc : isTextBreak c = true) :
    pieceClass d = pieceClass c ↔ isTextBreak d = true := by
  have hspace : ∀ e, isTextBreak e = true → e ≠ ' ' := by
    rintro e he rfl
    cases he
  unfold pieceClass
  by_cases hd : isTextBreak d = true
  · simp [hc, hd, hspace c hc, hspace d hd]
  · simp only [hspace c hc, hc, hd, if_false, if_true]
    split <;> decide

/-- Behind a space or a break that is not next to the other kind, the text goes on. -/
theorem solid_singleLines {w : Width} {column : Nat} {ps : List (List Char)} {t : List Char}
    (hps : ∀ p ∈ ps, p ≠ [])
    (hnext : ∀ d more later, ps = (d :: more) :: later →
      d ≠ ' ' ∧ d ≠ '\t' ∧ d ≠ '\r' ∧ isTextBreak d = false) :
    Solid (singleLines w column ps ++ '\'' :: t) := by
  cases ps with
  | nil => exact ⟨'\'', t, rfl, by decide, by decide, by decide⟩
  | cons p ps =>
    obtain ⟨d, more, rfl⟩ := List.exists_cons_of_ne_nil (hps p List.mem_cons_self)
    obtain ⟨hspace, htab, hreturn, hbreak⟩ := hnext d more ps rfl
    refine ⟨d, more ++ singleLines w (column + (d :: more).length) ps ++ '\'' :: t, ?_, hspace, htab,
      ?_⟩
    · simp [singleLines, hbreak, hspace]
    · simpa [isTextBreak, hreturn] using hbreak

theorem Grouped.alike {α : Type} {f : Char → α} {ps : List (List Char)} (h : Grouped f ps) :
    ∀ p ∈ ps, ∀ c ∈ p, ∀ d ∈ p, f c = f d := by
  induction h with
  | nil => simp
  | @cons e run rest hrun _ _ ih =>
    have hall : ∀ c ∈ e :: run, f c = f e := List.forall_mem_cons.mpr ⟨rfl, hrun⟩
    intro p hp
    rcases List.mem_cons.mp hp with rfl | hp
    · exact fun c hc d hd => (hall c hc).trans (hall d hd).symm
    · exact ih p hp

theorem Grouped.ne_nil {α : Type} {f : Char → α} {ps : List (List Char)} (h : Grouped f ps) :
    ∀ p ∈ ps, p ≠ [] := by
  induction h with
  | nil => simp
  | cons _ _ _ ih =>
    intro p hp
    rcases List.mem_cons.mp hp with rfl | hp
    · exact List.cons_ne_nil _ _
    · exact ih p hp

section Pieces

variable {w : Width} {column : Nat} {t run : List Char} {later : List (List Char)}
  (h : ∀ column, Reads m (singleLines w column later ++ '\'' :: t) text t)
include h

theorem reads_breaks (hw : 0 < w.indent) (hc : ∀ d ∈ c :: run, isTextBreak d = true)
    (hsolid : ∀ column, Solid (singleLines w column later ++ '\'' :: t)) :
    Reads (m + 1) (singleLines w column ((c :: run) :: later) ++ '\'' :: t)
      (kept (c :: run) ++ text) t := by
  obtain ⟨hfirst, hmore⟩ := List.forall_mem_cons.mp hc
  have hwritten : singleLines w column ((c :: run) :: later) ++ '\'' :: t =
      c :: (run ++ (List.replicate w.indent ' ' ++ (singleLines w w.indent later ++ '\'' :: t))) := by
    simp [singleLines, hfirst]
  have hkept : kept (c :: run) = folded (breakChar c) (run.map breakChar) := by
    simp [kept, hfirst]
  rw [hwritten, hkept]
  exact (h w.indent).space (.inr hfirst) (quotedSpace_breaks (hsolid _) hw hfirst hmore)

/-- Spaces come back, also a single one that was written as the end of a line. -/
theorem reads_spaces (hw : 0 < w.indent) (k : Nat)
    (hsolid : ∀ column, Solid (singleLines w column later ++ '\'' :: t)) :
    Reads (m + 1) (singleLines w column (List.replicate (k + 1) ' ' :: later) ++ '\'' :: t)
      (kept (List.replicate (k + 1) ' ') ++ text) t := by
  have hbreak : isTextBreak ' ' = false := rfl
  have hkept : kept (List.replicate (k + 1) ' ') = List.replicate (k + 1) ' ' := by
    simp [List.replicate_succ, kept, hbreak]
  rw [hkept]
  by_cases hcut : k = 0 ∧ w.columns < column ∧ later ≠ []
  · obtain ⟨rfl, hcolumn, hlater⟩ := hcut
    have hwritten : singleLines w column (List.replicate (0 + 1) ' ' :: later) ++ '\'' :: t =
        '\n' :: ([] ++ (List.replicate w.indent ' ' ++
          (singleLines w w.indent later ++ '\'' :: t))) := by
      simp [singleLines, hbreak, hcolumn, hlater, Width.newLine]
    rw [hwritten]
    exact (h w.indent).space (.inr rfl) (quotedSpace_breaks (hsolid _) hw rfl (by simp))
  · have hwritten : singleLines w column (List.replicate (k + 1) ' ' :: later) ++ '\'' :: t =
        List.replicate (k + 1) ' ' ++ (singleLines w (column + (k + 1)) later ++ '\'' :: t) := by
      have hno : ((List.replicate k ' ').isEmpty && decide (w.columns < column) && !later.isEmpty) =
          false := by
        rw [Bool.eq_false_iff]
        intro hall
        refine hcut ?_
        simpa [and_assoc] using hall
      rw [List.replicate_succ, singleLines]
      simp only [hbreak, decide_true, Bool.true_and, hno, Bool.false_eq_true, if_false,
        List.length_cons, List.length_replicate, List.append_assoc]
    rw [hwritten]
    have hspaces := quotedSpace_spaces (hsolid (column + (k + 1))) (k + 1)
    exact (h (column + (k + 1))).space (.inl rfl) hspaces

theorem reads_word (hword : ∀ d ∈ c :: run, Literal d) :
    Reads (m + (c :: run).length) (singleLines w column ((c :: run) :: later) ++ '\'' :: t)
      (kept (c :: run) ++ text) t := by
  obtain ⟨-, hspace, -, hbreak⟩ := hword c List.mem_cons_self
  have htext : isTextBreak c = false := by simp [isTextBreak, hbreak]
  have hwritten : singleLines w column ((c :: run) :: later) ++ '\'' :: t =
      c :: run ++ (singleLines w (column + (c :: run).length) later ++ '\'' :: t) := by
    simp [singleLines, htext, hspace]
  have hkept : kept (c :: run) = c :: run := by simp [kept, htext]
  rw [hwritten, hkept]
  exact (h _).word hword

end Pieces

/-- Behind spaces or breaks, which do not stand side by side, the text goes on. -/
theorem solid_behind {w : Width} {column : Nat} {t run : List Char} {later : List (List Char)}
    (hg : Grouped pieceClass ((c :: run) :: later)) (hc : c = ' ' ∨ isTextBreak c = true)
    (hplain : ∀ d ∈ later.flatten, d ≠ '\'' ∧ d ≠ '\t' ∧ d ≠ '\r')
    (hchain : ((c :: run) :: later).flatten.IsChain Apart) :
    Solid (singleLines w column later ++ '\'' :: t) := by
  cases hg with
  | cons hrun hnext hlater =>
    refine solid_singleLines hlater.ne_nil fun d more rest he => ?_
    obtain ⟨-, htab, hreturn⟩ := hplain d (by simp [he])
    have hclass := hnext d more rest he
    -- The last character of the piece is of its kind, and may stand before the next piece.
    have hlast : pieceClass ((c :: run).getLast (List.cons_ne_nil _ _)) = pieceClass c := by
      rcases List.mem_cons.mp (List.getLast_mem (List.cons_ne_nil c run)) with h | h
      · rw [h]
      · exact hrun _ h
    rw [List.flatten_cons, List.isChain_append] at hchain
    have hapart := hchain.2.2 _ (List.getLast?_eq_some_getLast (List.cons_ne_nil c run)) d
      (by simp [he])
    rcases hc with rfl | hc
    · refine ⟨mt pieceClass_space.mpr hclass, htab, hreturn, Bool.eq_false_iff.mpr fun hd => ?_⟩
      exact hapart.1 ⟨pieceClass_space.mp hlast, hd⟩
    · refine ⟨fun hd => hapart.2 ⟨(pieceClass_break hc).mp hlast, hd⟩, htab, hreturn, ?_⟩
      exact Bool.eq_false_iff.mpr (mt (pieceClass_break hc).mpr hclass)

/-- A single quoted text is read piece by piece. Words and spaces come back, and breaks are
folded. -/
theorem reads_singleLines {w : Width} (hw : 0 < w.indent) {t : List Char} (ht : t.head? ≠ some '\'')
    {ps : List (List Char)} (hg : Grouped pieceClass ps)
    (hplain : ∀ c ∈ ps.flatten, c ≠ '\'' ∧ c ≠ '\t' ∧ c ≠ '\r') (hchain : ps.flatten.IsChain Apart)
    (column : Nat) :
    Reads ps.flatten.length (singleLines w column ps ++ '\'' :: t) (ps.flatMap kept) t := by
  induction hg generalizing column with
  | nil => exact reads_end ht
  | @cons c run later hrun hnext hlater ih =>
    have hall : Grouped pieceClass ((c :: run) :: later) := .cons hrun hnext hlater
    have hbehind : ∀ d ∈ later.flatten, d ≠ '\'' ∧ d ≠ '\t' ∧ d ≠ '\r' := fun d hd =>
      hplain d (by rw [List.flatten_cons]; exact List.mem_append_right _ hd)
    have hread := ih hbehind
      (List.IsChain.right_of_append (by rwa [List.flatten_cons] at hchain))
    have hlength : ((c :: run) :: later).flatten.length = later.flatten.length + (c :: run).length := by
      rw [List.flatten_cons, List.length_append, Nat.add_comm]
    rw [List.flatMap_cons, hlength]
    by_cases hs : c = ' '
    · have hsolid : ∀ column, Solid (singleLines w column later ++ '\'' :: t) := fun _ =>
        solid_behind hall (.inl hs) hbehind hchain
      subst hs
      rw [hall.first_eq fun _ => pieceClass_space.mp]
      exact (reads_spaces hread hw run.length hsolid).mono (by simp)
    · by_cases hc : isTextBreak c = true
      · have hsolid : ∀ column, Solid (singleLines w column later ++ '\'' :: t) := fun _ =>
          solid_behind hall (.inr hc) hbehind hchain
        have hbreaks : ∀ d ∈ c :: run, isTextBreak d = true :=
          List.forall_mem_cons.mpr ⟨hc, fun d hd => (pieceClass_break hc).mp (hrun d hd)⟩
        exact (reads_breaks hread hw hbreaks hsolid).mono (by simp)
      · have hword : ∀ d ∈ c :: run, Literal d := by
          intro d hd
          obtain ⟨hquote, htab, hreturn⟩ := hplain d (by
            rw [List.flatten_cons]
            exact List.mem_append_left _ hd)
          have hclass : pieceClass d = pieceClass c := by
            rcases List.mem_cons.mp hd with rfl | hd
            · rfl
            · exact hrun d hd
          have hspace : d ≠ ' ' := fun h => hs (pieceClass_space.mp (h ▸ hclass.symm))
          have hbreak : isTextBreak d ≠ true := fun h => hc ((pieceClass_break h).mp hclass.symm)
          refine ⟨hquote, hspace, htab, ?_⟩
          simpa [isTextBreak, hreturn] using hbreak
        exact reads_word hread hword

theorem breakChar_ne (c : Char) : breakChar c ≠ '\x85' := by
  unfold breakChar
  split
  · next h =>
    rintro rfl
    cases h
  · decide

/-- A piece of breaks does not hold the mark of a next line when it was read. -/
theorem not_mem_folded (c : Char) (more : List Char) :
    '\x85' ∉ folded (breakChar c) (more.map breakChar) := by
  have hmore : '\x85' ∉ more.map breakChar := by
    rw [List.mem_map]
    rintro ⟨d, -, hd⟩
    exact breakChar_ne d hd
  unfold folded
  split
  · rw [List.mem_cons, not_or]
    exact ⟨(breakChar_ne c).symm, hmore⟩
  · split
    · decide
    · exact hmore

theorem not_mem_kept {ps : List (List Char)} (hg : Grouped pieceClass ps) :
    '\x85' ∉ ps.flatMap kept := by
  induction hg with
  | nil => simp
  | @cons c run later hrun _ _ ih =>
    rw [List.flatMap_cons, List.mem_append, not_or]
    refine ⟨?_, ih⟩
    rw [kept]
    by_cases hc : isTextBreak c = true
    · rw [if_pos hc]
      exact not_mem_folded c run
    · rw [if_neg hc]
      intro hmem
      refine hc ?_
      rcases List.mem_cons.mp hmem with rfl | hmem
      · rfl
      · exact (pieceClass_break (by rfl)).mp (hrun _ hmem).symm

theorem kept_eq {p : List Char} (hp : ∀ c ∈ p, isTextBreak c = true → c = '\u2028' ∨ c = '\u2029')
    (hall : ∀ c ∈ p, ∀ d ∈ p, isTextBreak c = isTextBreak d) : kept p = p := by
  cases p with
  | nil => rfl
  | cons c run =>
    rw [kept]
    by_cases hc : isTextBreak c = true
    · have hsame : ∀ d ∈ c :: run, breakChar d = d := by
        intro d hd
        have hbreak : isTextBreak d = true := (hall d hd c List.mem_cons_self).trans hc
        rcases hp d hd hbreak with rfl | rfl <;> rfl
      have hfirst : (breakChar c != '\n') = true := by
        rcases hp c List.mem_cons_self hc with rfl | rfl <;> rfl
      rw [if_pos hc, folded, if_pos hfirst, hsame c List.mem_cons_self]
      congr 1
      exact (List.map_congr_left fun d hd => hsame d (List.mem_cons_of_mem _ hd)).trans
        (List.map_id run)
    · rw [if_neg hc]

/-- Single quotes give a text back unless it holds the mark of a next line. -/
theorem singleQuoted_written {w : Width} (hw : 0 < w.indent) {t : List Char}
    (ht : t.head? ≠ some '\'') (hplain : ∀ c ∈ s, c ≠ '\'' ∧ c ≠ '\n' ∧ needsEscape c = false)
    (hbroken : hasBrokenSpace s = false) (column : Nat) :
    ∃ text, (∀ fuel, s.length < fuel →
      singleQuoted fuel (singleLines w column (pieces s) ++ '\'' :: t) = .ok (text, t)) ∧
      (text = s ↔ '\x85' ∉ s) := by
  obtain ⟨hg, hflat⟩ := grouped_pieces s
  have hquotes : ∀ c ∈ (pieces s).flatten, c ≠ '\'' ∧ c ≠ '\t' ∧ c ≠ '\r' := by
    intro c hc
    rw [hflat] at hc
    obtain ⟨hquote, -, hescape⟩ := hplain c hc
    refine ⟨hquote, ?_, ?_⟩
    · rintro rfl
      cases hescape
    · rintro rfl
      cases hescape
  have hread := reads_singleLines hw ht hg hquotes
    (by rw [hflat]; exact isChain_of_hasBrokenSpace hbroken) column
  rw [hflat] at hread
  refine ⟨(pieces s).flatMap kept, hread, ?_, fun hnext => ?_⟩
  · intro he
    rw [← he]
    exact not_mem_kept hg
  · have hkept : ∀ p ∈ pieces s, kept p = p := by
      intro p hp
      have hmem : ∀ c ∈ p, c ∈ s := fun c hc => hflat ▸ List.mem_flatten_of_mem hp hc
      refine kept_eq (fun c hc hbreak => ?_) fun c hc d hd => ?_
      · rcases eq_of_isTextBreak hbreak with rfl | rfl | rfl | rfl
        · exact absurd rfl (hplain _ (hmem _ hc)).2.1
        · exact absurd (hmem _ hc) hnext
        · exact .inl rfl
        · exact .inr rfl
      · have hclass := hg.alike p hp c hc d hd
        cases hd : isTextBreak d with
        | true => exact (pieceClass_break hd).mp hclass
        | false =>
          refine Bool.eq_false_iff.mpr fun hc => ?_
          rw [(pieceClass_break hc).mp hclass.symm] at hd
          cases hd
    exact (List.flatMap_congr hkept).trans (by simpa using hflat)

end Sourcebook.Yaml
