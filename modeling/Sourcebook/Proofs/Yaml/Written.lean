-- A written title is read as one text. It is the title, unless single quotes hold the mark of a next
-- line or a line of a text without quotes was ended behind two spaces.
import Mathlib
import Sourcebook.Proofs.Yaml.Entry
import Sourcebook.Proofs.Yaml.Forms

namespace Sourcebook.Yaml

open Data (Value)

variable {w : Width} {c : Char} {s t : List Char} {title : String}

/-! ## Styles -/

theorem isPlainText_of_style (h : styleOf title = .plain) : isPlainText title = true := by
  unfold styleOf at h
  dsimp only at h
  split at h
  · assumption
  · split at h
    · cases h
    · split at h <;> cases h

theorem of_style_single (h : styleOf title = .single) :
    (∀ c ∈ title.toList, c ≠ '\'' ∧ c ≠ '\n' ∧ needsEscape c = false) ∧
      hasBrokenSpace title.toList = false := by
  unfold styleOf at h
  dsimp only at h
  split at h
  · cases h
  · split at h
    · cases h
    · next hquote =>
      split at h
      · cases h
      · next hescape =>
        simp only [Bool.not_eq_true, Bool.or_eq_false_iff, List.any_eq_false, decide_eq_false_iff_not]
          at hquote hescape
        exact ⟨fun c hc => ⟨(hquote c hc).1, (hquote c hc).2, hescape.1 c hc⟩, hescape.2⟩

section Written

variable (w) (column : Nat)

theorem writeText_plain (h : styleOf title = .plain) : writeText w column title =
    ' ' :: plainLines w (column + 1) (runs (· = ' ') title.toList) := by
  delta writeText
  rw [h]

theorem writeText_single (h : styleOf title = .single) : writeText w column title =
    ' ' :: '\'' :: (singleLines w (column + 2) (pieces title.toList) ++ ['\'']) := by
  delta writeText
  rw [h]

theorem writeText_double (h : styleOf title = .double) : writeText w column title =
    ' ' :: '"' :: (title.toList.flatMap doubleChar ++ ['"']) := by
  delta writeText
  rw [h]

end Written

/-- What a text without quotes is like. -/
structure Plain (s : List Char) : Prop where
  ne_nil : s ≠ []
  head : s.head? ≠ some ' '
  last : s.getLast? ≠ some ' '
  ordinary : ∀ c ∈ s, needsEscape c = false ∧ isTextBreak c = false
  free : startsIndicator s = false
  unmarked : hasIndicator true s = false
  kind : kindOf .core (String.ofList s) = .text

theorem plain_of_style (h : styleOf title = .plain) : Plain title.toList := by
  have hplain := isPlainText_of_style h
  simp only [isPlainText, Bool.and_eq_true, Bool.not_eq_true', List.isEmpty_eq_false_iff, bne_iff_ne,
    List.any_eq_false, Bool.or_eq_true, not_or, Bool.not_eq_true, decide_eq_true_eq] at hplain
  obtain ⟨⟨⟨⟨⟨⟨⟨hne, hhead⟩, hlast⟩, hordinary⟩, -⟩, hfree⟩, hmarks⟩, hkind⟩ := hplain
  exact ⟨hne, hhead, hlast, hordinary, hfree, hmarks, by rwa [String.ofList_toList]⟩

theorem Plain.not_line (h : Plain s) (hc : c ∈ s) : c ≠ '\n' := by
  rintro rfl
  exact absurd (h.ordinary _ hc).2 (by decide)

theorem Plain.not_gap (h : Plain s) (hc : c ∈ s) (hspace : c ≠ ' ') : isGap c = false := by
  obtain ⟨hescape, hbreak⟩ := h.ordinary c hc
  have htab : c ≠ '\t' := by
    rintro rfl
    cases hescape
  have hreturn : c ≠ '\r' := by
    rintro rfl
    cases hescape
  simpa [isGap, isTextBreak, hspace, htab, hreturn] using hbreak

/-! ## What stands on the lines -/

theorem isAllowed_of_needsEscape (h : needsEscape c = false) : isAllowed c = true := by
  have hle : ∀ a b : Char, a ≤ b ↔ a.toNat ≤ b.toNat := fun _ _ => Iff.rfl
  have heq : ∀ a b : Char, a = b ↔ a.toNat = b.toNat := fun _ _ => Char.toNat_inj.symm
  simp [needsEscape, heq] at h
  simp [isAllowed, hle, heq]
  omega

/-- What may stand on a line. -/
def Inline (c : Char) : Prop := c ≠ '\n' ∧ isAllowed c = true

/-- Lines of which all but the first are indented. -/
inductive Wrapped (w : Width) : List Char → Prop
  | nil : Wrapped w []
  | char {c : Char} {s : List Char} : Inline c → Wrapped w s → Wrapped w (c :: s)
  | line {s : List Char} : Wrapped w s → Wrapped w (w.newLine ++ s)

theorem inline_space : Inline ' ' := ⟨by decide, rfl⟩

theorem inline_hexDigit (h : isHexDigit c = true) : Inline c := by
  have hle : ∀ a b : Char, a ≤ b ↔ a.toNat ≤ b.toNat := fun _ _ => Iff.rfl
  have heq : ∀ a b : Char, a = b ↔ a.toNat = b.toNat := fun _ _ => Char.toNat_inj.symm
  simp [isHexDigit, isDigit, hle] at h
  simp [Inline, isAllowed, hle, heq]
  omega

theorem Wrapped.append (h : Wrapped w t) (hs : ∀ c ∈ s, Inline c) : Wrapped w (s ++ t) := by
  induction s with
  | nil => exact h
  | cons c s ih =>
    obtain ⟨hc, hmore⟩ := List.forall_mem_cons.mp hs
    exact .char hc (ih hmore)

theorem Wrapped.spaces (h : Wrapped w t) (n : Nat) : Wrapped w (List.replicate n ' ' ++ t) :=
  h.append fun c hc => by rw [List.eq_of_mem_replicate hc]; exact inline_space

theorem wrapped_plainLines {ps : List (List Char)} (h : ∀ p ∈ ps, ∀ c ∈ p, Inline c) (column : Nat) :
    Wrapped w (plainLines w column ps) := by
  induction ps generalizing column with
  | nil => exact .nil
  | cons p ps ih =>
    obtain ⟨hp, hmore⟩ := List.forall_mem_cons.mp h
    rw [plainLines]
    split
    · split
      · exact (ih hmore _).line
      · exact (ih hmore _).append hp
    · split
      · rw [List.append_assoc]
        exact ((ih hmore _).append hp).line
      · exact (ih hmore _).append hp

theorem wrapped_singleLines {ps : List (List Char)} (h : ∀ p ∈ ps, ∀ c ∈ p, Inline c) (column : Nat)
    (ht : Wrapped w t) : Wrapped w (singleLines w column ps ++ t) := by
  induction ps generalizing column with
  | nil => exact ht
  | cons p ps ih =>
    obtain ⟨hp, hmore⟩ := List.forall_mem_cons.mp h
    cases p with
    | nil => exact ih hmore _
    | cons c more =>
      rw [singleLines]
      split
      · rw [List.append_assoc, List.append_assoc]
        exact ((ih hmore _).spaces _).append hp
      · split
        · rw [List.append_assoc]
          exact (ih hmore _).line
        · rw [List.append_assoc]
          exact (ih hmore _).append hp

/-- The letter of a width and the digits behind it. -/
theorem inline_spelled {e : List Char} (h : spells c e = true) : ∀ d ∈ e, Inline d := by
  cases e with
  | nil => cases h
  | cons e ds =>
    simp only [spells, Bool.and_eq_true, beq_iff_eq, List.all_eq_true] at h
    obtain ⟨⟨⟨-, hwidth⟩, hdigits⟩, -⟩ := h
    refine List.forall_mem_cons.mpr ⟨?_, fun d hd => inline_hexDigit (hdigits d hd)⟩
    unfold escapeWidth? at hwidth
    split at hwidth
    · exact ⟨by decide, rfl⟩
    · exact ⟨by decide, rfl⟩
    · exact ⟨by decide, rfl⟩
    · cases hwidth

/-- Escapes are written in common characters. -/
theorem inline_doubleChar (c : Char) : ∀ d ∈ doubleChar c, Inline d := by
  cases hletter : escapeLetter? c with
  | some e =>
    rw [doubleChar_of_letter hletter]
    exact List.forall_mem_cons.mpr
      ⟨⟨by decide, rfl⟩, List.forall_mem_singleton.mpr (letter_of_escape hletter).2⟩
  | none =>
    cases hneeds : needsEscape c with
    | false =>
      rw [doubleChar_of_plain hletter hneeds]
      refine List.forall_mem_singleton.mpr ⟨?_, isAllowed_of_needsEscape hneeds⟩
      rintro rfl
      cases hletter
    | true =>
      obtain ⟨hspells, hhead⟩ := @spells_of_numbered c (by simp [numbered, hletter, hneeds])
      rw [← List.cons_head?_tail hhead]
      exact List.forall_mem_cons.mpr ⟨⟨by decide, rfl⟩, inline_spelled hspells⟩

theorem Wrapped.allowed (h : Wrapped w s) : ∀ c ∈ s, isAllowed c = true := by
  induction h with
  | nil => simp
  | char hc _ ih => exact List.forall_mem_cons.mpr ⟨hc.2, ih⟩
  | line _ ih =>
    intro c hc
    rcases List.mem_append.mp hc with hc | hc
    · rcases List.mem_cons.mp hc with rfl | hc
      · decide
      · rw [List.eq_of_mem_replicate hc]
        decide
    · exact ih c hc

/-- A title is written on lines of which all but the first are indented. -/
theorem wrapped_writeText (column : Nat) (title : String) : Wrapped w (writeText w column title) := by
  have hpieces : ∀ {ps : List (List Char)}, (∀ c ∈ ps.flatten, Inline c) →
      ∀ p ∈ ps, ∀ c ∈ p, Inline c := fun h p hp c hc => h c (List.mem_flatten_of_mem hp hc)
  cases hstyle : styleOf title with
  | plain =>
    have hplain := plain_of_style hstyle
    rw [writeText_plain w column hstyle]
    refine .char inline_space (wrapped_plainLines (hpieces ?_) _)
    rw [(grouped_runs _ _).2]
    exact fun c hc => ⟨hplain.not_line hc, isAllowed_of_needsEscape (hplain.ordinary c hc).1⟩
  | single =>
    rw [writeText_single w column hstyle]
    refine .char inline_space (.char ⟨by decide, rfl⟩ (wrapped_singleLines (hpieces ?_) _ ?_))
    · rw [(grouped_pieces _).2]
      intro c hc
      obtain ⟨-, hline, hescape⟩ := (of_style_single hstyle).1 c hc
      exact ⟨hline, isAllowed_of_needsEscape hescape⟩
    · exact .char ⟨by decide, rfl⟩ .nil
  | double =>
    rw [writeText_double w column hstyle]
    refine .char inline_space (.char ⟨by decide, rfl⟩ (Wrapped.append ?_ ?_))
    · exact .char ⟨by decide, rfl⟩ .nil
    · intro c hc
      obtain ⟨d, -, hc⟩ := List.mem_flatMap.mp hc
      exact inline_doubleChar d c hc

/-! ## What is read -/

theorem length_singleLines (w : Width) (ps : List (List Char)) (column : Nat) :
    ps.flatten.length ≤ (singleLines w column ps).length := by
  induction ps generalizing column with
  | nil => simp
  | cons p ps ih =>
    cases p with
    | nil => exact ih column
    | cons c more =>
      rw [singleLines, List.flatten_cons, List.length_append]
      split
      · have hrest := ih w.indent
        simp only [List.length_append]
        omega
      · split
        · next hone =>
          obtain rfl : more = [] := by
            simp only [Bool.and_eq_true, List.isEmpty_iff] at hone
            exact hone.1.1.2
          have hrest := ih w.indent
          simp only [Width.newLine, List.length_append, List.length_cons, List.length_nil]
          omega
        · have hrest := ih (column + (c :: more).length)
          simp only [List.length_append]
          omega

theorem length_flatMap_doubleChar (s : List Char) : s.length ≤ (s.flatMap doubleChar).length := by
  induction s with
  | nil => simp
  | cons c s ih =>
    have hone : 1 ≤ (doubleChar c).length := by
      rcases doubleChar_cases c with ⟨he, -⟩ | ⟨e, he, -⟩ <;> simp [he]
    rw [List.flatMap_cons, List.length_append, List.length_cons]
    omega

theorem Laid.length_le {gaps : List (Nat × List Char)} {text read : List Char}
    (hl : Laid w gaps text read) : gaps.length ≤ text.length := by
  induction hl with
  | nil => simp
  | kept k word _ ih =>
    simp only [List.length_cons, List.length_append, List.length_replicate]
    omega
  | ended k j word _ _ ih =>
    simp only [List.length_cons, List.length_append, List.length_replicate]
    omega

theorem Laid.wider {gaps : List (Nat × List Char)} {text read : List Char}
    (hl : Laid w gaps text read) : Wider read (laid gaps).flatten := by
  induction hl with
  | nil => exact .nil
  | @kept gaps _ read k word _ ih =>
    have hflat : (laid ((k, word) :: gaps)).flatten =
        List.replicate (k + 1) ' ' ++ (word ++ (laid gaps).flatten) := by
      simp [laid]
    rw [hflat]
    exact (ih.append word).append _
  | @ended gaps _ read k j word _ _ ih =>
    have hflat : (laid ((k, word) :: gaps)).flatten =
        List.replicate (k + 1) ' ' ++ (word ++ (laid gaps).flatten) := by
      simp [laid]
    rw [hflat]
    exact (ih.append word).spaces k

/-- The entry of a title: its key, and the value up to the end of its line. -/
theorem entryText_title (title : String) : entryText titleWidth "title" title =
    "title:".toList ++ (writeText titleWidth 6 title ++ ['\n']) := rfl

/-- In double quotes. -/
theorem tokens_double (h : styleOf title = .double) :
    Token.ofSource ⟨entryText titleWidth "title" title, none⟩ = entryTokens title false := by
  have hread : ∀ written, written = title.toList.flatMap doubleChar ++ ['"'] →
      doubleQuoted ((written ++ ['\n']).length + 1) (written ++ ['\n']) =
        .ok (title.toList, ['\n']) := by
    rintro _ rfl
    rw [List.append_assoc]
    refine doubleQuoted_written ['\n'] ?_
    have hlength := length_flatMap_doubleChar title.toList
    simp only [List.length_append]
    omega
  have htokens := Lexer.ofSource_quoted false rfl (hread _ rfl)
  rw [String.ofList_toList] at htokens
  rw [entryText_title, writeText_double _ _ h, ← htokens]
  rfl

/-- In single quotes. -/
theorem tokens_single (h : styleOf title = .single) :
    ∃ text, Token.ofSource ⟨entryText titleWidth "title" title, none⟩ =
        entryTokens (String.ofList text) false ∧ (text = title.toList ↔ '\x85' ∉ title.toList) := by
  obtain ⟨hplain, hbroken⟩ := of_style_single h
  obtain ⟨text, hread, hlost⟩ := @singleQuoted_written _ titleWidth (by decide) ['\n'] (by decide)
    hplain hbroken 8
  refine ⟨text, ?_, hlost⟩
  have hquoted : ∀ written, written = singleLines titleWidth 8 (pieces title.toList) ++ ['\''] →
      singleQuoted ((written ++ ['\n']).length + 1) (written ++ ['\n']) = .ok (text, ['\n']) := by
    rintro _ rfl
    rw [List.append_assoc]
    refine hread _ ?_
    have hlength := length_singleLines titleWidth (pieces title.toList) 8
    rw [(grouped_pieces _).2] at hlength
    simp only [List.length_append]
    omega
  rw [← Lexer.ofSource_quoted true rfl (hquoted _ rfl), entryText_title, writeText_single _ _ h]
  rfl

theorem starts_of_plain {more later : List Char} (hword : Bare (c :: more))
    (hplain : Plain (c :: more ++ later)) (hlater : whiteAhead later = true) :
    Lexer.Starts c (more ++ t) := by
  have hfree := hplain.free
  rw [List.cons_append, startsIndicator, Bool.or_eq_false_iff, Bool.and_eq_false_iff] at hfree
  refine ⟨hword.ordinary c List.mem_cons_self, ?_, fun hmark => ?_⟩
  · simpa using hfree.1
  · have hnext := hfree.2.resolve_left (by rcases hmark with rfl | rfl | rfl <;> decide)
    cases more with
    | nil =>
      rw [List.nil_append, hlater] at hnext
      cases hnext
    | cons d more => exact hword.ordinary d (by simp)

theorem whiteAhead_laid (gaps : List (Nat × List Char)) : whiteAhead (laid gaps).flatten = true := by
  cases gaps <;> rfl

/-- No spaces are torn before the first word. -/
theorem torn_lead {lead word : List Char} (hlead : Lexer.Lead lead) (hword : Bare word) :
    Torn ("title:".toList ++ (lead ++ (word ++ s))) ↔ Torn s := by
  have hplain : ∀ c ∈ word, c ≠ ' ' := fun c hc => (not_space_of_gap (hword.ordinary c hc)).1
  obtain ⟨c, more, rfl, hspace, hline⟩ := bare_head hword
  have hkey : ∀ c ∈ "title:".toList, c ≠ ' ' := by simp
  rw [torn_word hkey, ← torn_word (s := s) hplain]
  rcases hlead with rfl | rfl
  · exact torn_spaces hspace hline 1
  · rw [show ' ' :: titleWidth.newLine ++ (c :: more ++ s) =
        List.replicate 1 ' ' ++ '\n' :: (List.replicate 2 ' ' ++ c :: (more ++ s)) from rfl,
      torn_line, torn_spaces hspace hline, List.cons_append]
    simp

/-- Without quotes. -/
theorem tokens_plain (h : styleOf title = .plain) :
    ∃ text, Token.ofSource ⟨entryText titleWidth "title" title, none⟩ =
        entryTokens (String.ofList text) true ∧ kindOf .core (String.ofList text) = .text ∧
        (text = title.toList ↔ ¬ Torn (entryText titleWidth "title" title)) := by
  have hplain := plain_of_style h
  obtain ⟨hgrouped, hflat⟩ := grouped_runs (· = ' ') title.toList
  have hne : runs (· = ' ') title.toList ≠ [] := by
    intro hnil
    rw [hnil] at hflat
    exact hplain.ne_nil hflat.symm
  obtain ⟨word, gaps, hruns, hword, hgaps⟩ := exists_gaps hgrouped hne
    (by rw [hflat]; exact hplain.head) (by rw [hflat]; exact hplain.last)
    (by rw [hflat]; exact fun c hc => hplain.not_gap hc) (by rw [hflat]; exact hplain.unmarked)
  rw [hruns, List.flatten_cons] at hflat
  obtain ⟨column, hlines⟩ := @plainLines_word _ titleWidth hword 7 (laid gaps)
  obtain ⟨read, hl⟩ := @plainLines_laid titleWidth gaps hgaps column
  obtain ⟨lead, hlead, hwritten⟩ : ∃ lead, Lexer.Lead lead ∧ entryText titleWidth "title" title =
      "title:".toList ++ (lead ++ (word ++ (plainLines titleWidth column (laid gaps) ++ ['\n']))) := by
    rw [entryText_title, writeText_plain _ _ h, hruns, hlines]
    split
    · exact ⟨' ' :: titleWidth.newLine, .inr rfl, by simp⟩
    · exact ⟨[' '], .inl rfl, by simp⟩
  refine ⟨word ++ read, ?_, ?_, ?_⟩
  · obtain ⟨c, more, rfl⟩ := List.exists_cons_of_ne_nil hword.ne_nil
    have hstarts := starts_of_plain (t := plainLines titleWidth column (laid gaps) ++ ['\n']) hword
      (by rwa [hflat]) (whiteAhead_laid gaps)
    rw [hwritten]
    refine Lexer.ofSource_plain hlead hstarts fun y hy => ?_
    have hfuel : gaps.length < y.rest.length + 1 := by
      have hlength := hl.length_le
      rw [hy]
      simp only [List.length_append, List.length_cons]
      omega
    exact plainFrom_laid (by decide) hl hgaps hword hy hfuel
  · refine kindOf_wider (hl.wider.append word) ?_ (by rw [hflat]; exact hplain.kind)
    rw [hflat]
    exact fun hmem => hplain.not_line hmem rfl
  · rw [hwritten, torn_lead hlead hword, ← hl.read_eq_iff hgaps, ← hflat, List.append_cancel_left_eq]

/-! ## Titles that come back -/

/-- Single quotes lose the mark of a next line, and without quotes spaces are lost where a line was
ended behind them. -/
def Survives (title : String) : Prop :=
  match styleOf title with
  | .plain => ¬ Torn (entryText titleWidth "title" title)
  | .single => '\x85' ∉ title.toList
  | .double => True

theorem allowed_entryText (title : String) :
    ∀ c ∈ entryText titleWidth "title" title, isAllowed c = true := by
  have hkey : ∀ c ∈ "title:".toList, isAllowed c = true := by simp [isAllowed]
  have hvalue := (@wrapped_writeText titleWidth 6 title).allowed
  rw [entryText_title]
  refine List.forall_mem_append.mpr ⟨hkey, List.forall_mem_append.mpr ⟨hvalue, ?_⟩⟩
  exact List.forall_mem_singleton.mpr rfl

/-- A title is always read as one text under its key. -/
theorem read_entryText (title : String) : ∃ t : String,
    read (entryText titleWidth "title" title) = .ok (.map [(.text "title", .text t)]) ∧
      (t = title ↔ Survives title) := by
  have heq : ∀ text : List Char, String.ofList text = title ↔ text = title.toList := by
    intro text
    rw [← String.toList_inj, String.toList_ofList]
  have hallowed := allowed_entryText title
  unfold Survives
  cases hstyle : styleOf title with
  | plain =>
    obtain ⟨text, htokens, hkind, hlost⟩ := tokens_plain hstyle
    exact ⟨_, read_entry hallowed htokens fun _ => hkind, (heq text).trans hlost⟩
  | single =>
    obtain ⟨text, htokens, hlost⟩ := tokens_single hstyle
    exact ⟨_, read_entry hallowed htokens (by simp), (heq text).trans hlost⟩
  | double => exact ⟨_, read_entry hallowed (tokens_double hstyle) (by simp), by simp⟩

theorem plainLines_short {ps : List (List Char)} (hne : ∀ p ∈ ps, p ≠ []) {column : Nat}
    (h : column + ps.flatten.length ≤ w.columns) : plainLines w column ps = ps.flatten := by
  induction ps generalizing column with
  | nil => rfl
  | cons p ps ih =>
    obtain ⟨hp, hmore⟩ := List.forall_mem_cons.mp hne
    have hlength := List.length_pos_iff.mpr hp
    rw [List.flatten_cons, List.length_append] at h
    have hrest := @ih hmore (column + p.length) (by omega)
    have hspace : ¬ w.columns ≤ column := by omega
    have hword : ¬ w.columns < column + p.length := by omega
    simp [plainLines, hspace, hword, hrest]

/-- Without other line ends and with no space before the last one nothing is torn. -/
theorem not_torn (hline : '\n' ∉ s) (hlast : s.getLast? ≠ some ' ') : ¬ Torn (s ++ ['\n']) := by
  rintro ⟨a, b, h⟩
  rcases List.eq_nil_or_concat b with rfl | ⟨b, d, rfl⟩
  · rw [List.append_nil, show [' ', ' ', '\n'] = [' ', ' '] ++ ['\n'] from rfl,
      ← List.append_assoc] at h
    rw [← (List.append_inj' h rfl).1] at hlast
    simp at hlast
  · rw [List.concat_eq_append, ← List.append_assoc] at h
    rw [← (List.append_inj' h rfl).1] at hline
    simp at hline

/-- Titles that fit on one line come back unless they hold the mark of a next line. -/
theorem survives_of_short (hlength : title.length + 7 ≤ titleWidth.columns)
    (hnext : '\x85' ∉ title.toList) : Survives title := by
  unfold Survives
  cases hstyle : styleOf title with
  | plain =>
    have hplain := plain_of_style hstyle
    obtain ⟨hgrouped, hflat⟩ := grouped_runs (· = ' ') title.toList
    have hruns : plainLines titleWidth 7 (runs (· = ' ') title.toList) = title.toList := by
      rw [plainLines_short hgrouped.ne_nil, hflat]
      rw [hflat, String.length_toList]
      omega
    have hwritten : entryText titleWidth "title" title =
        ("title: ".toList ++ title.toList) ++ ['\n'] := by
      rw [entryText_title, writeText_plain _ _ hstyle, hruns]
      rfl
    dsimp only
    rw [hwritten]
    refine not_torn ?_ ?_
    · rw [List.mem_append, not_or]
      exact ⟨by simp, fun hmem => hplain.not_line hmem rfl⟩
    · rw [List.getLast?_append_of_ne_nil _ hplain.ne_nil]
      exact hplain.last
  | single => exact hnext
  | double => trivial

end Sourcebook.Yaml
