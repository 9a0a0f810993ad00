-- How many spaces stand between the words of a text does not decide what the text is read as without
-- quotes: only times may have spaces in them at all, and they may have any number.
import Mathlib
import Sourcebook.Yaml.Schema

namespace Sourcebook.Yaml

variable {c : Char} {s t s' t' : List Char} {n : Nat}

/-! ## Further spaces -/

/-- A text, and the text with further spaces beside some of its spaces. -/
inductive Wider : List Char → List Char → Prop
  | nil : Wider [] []
  | same {s t : List Char} (c : Char) : Wider s t → Wider (c :: s) (c :: t)
  | space {s t : List Char} : Wider (' ' :: s) t → Wider (' ' :: s) (' ' :: t)

namespace Wider

theorem append (h : Wider s t) (word : List Char) : Wider (word ++ s) (word ++ t) := by
  induction word with
  | nil => exact h
  | cons c word ih => exact ih.same c

theorem spaces (h : Wider s t) (n : Nat) : Wider (' ' :: s) (List.replicate (n + 1) ' ' ++ t) := by
  induction n with
  | zero => exact h.same ' '
  | succ n ih => exact ih.space

theorem mem (h : Wider s t) (hs : c ∈ s) : c ∈ t := by
  induction h with
  | nil => exact hs
  | same d _ ih => exact List.mem_cons.mpr ((List.mem_cons.mp hs).imp_right ih)
  | space _ ih => exact List.mem_cons_of_mem _ (ih hs)

theorem eq_nil (h : Wider [] t) : t = [] := by cases h; rfl

theorem eq_of_no_space (h : Wider s t) (hs : ' ' ∉ s) : t = s := by
  induction h with
  | nil => rfl
  | same c _ ih => rw [ih fun hmem => hs (List.mem_cons_of_mem _ hmem)]
  | space _ _ => exact absurd List.mem_cons_self hs

/-- It is the first characters of a kind that are passed over, with all spaces or before any. -/
theorem dropWhile {p : Char → Bool} (h : Wider s t) : Wider (s.dropWhile p) (t.dropWhile p) := by
  induction h with
  | nil => exact .nil
  | @same s t c h ih =>
    by_cases hc : p c = true
    · rwa [List.dropWhile_cons_of_pos hc, List.dropWhile_cons_of_pos hc]
    · rw [List.dropWhile_cons_of_neg hc, List.dropWhile_cons_of_neg hc]
      exact h.same c
  | @space s t h ih =>
    by_cases hc : p ' ' = true
    · rwa [show (' ' :: t).dropWhile p = t.dropWhile p from List.dropWhile_cons_of_pos hc]
    · rw [List.dropWhile_cons_of_neg hc, List.dropWhile_cons_of_neg hc]
      exact h.space

end Wider

/-! ## Times -/

/-- What is left of two texts behind one and the same part. -/
def Behind (s t s' t' : List Char) : Prop := Wider s' t' ∧ ∃ front, s = front ++ s' ∧ t = front ++ t'

theorem Behind.trans {s'' t'' : List Char} (h : Behind s t s' t') (h' : Behind s' t' s'' t'') :
    Behind s t s'' t'' := by
  obtain ⟨-, front, rfl, rfl⟩ := h
  obtain ⟨hw, more, rfl, rfl⟩ := h'
  exact ⟨hw, front ++ more, by simp, by simp⟩

theorem exists_digits (h : Wider s t) (most : Nat) : ∃ ds s' t', (s.take most).takeWhile isDigit = ds ∧
    (t.take most).takeWhile isDigit = ds ∧ Wider s' t' ∧ s = ds ++ s' ∧ t = ds ++ t' := by
  induction h generalizing most with
  | nil => exact ⟨[], [], [], by simp, by simp, .nil, rfl, rfl⟩
  | @same s t c h ih =>
    cases most with
    | zero => exact ⟨[], _, _, rfl, rfl, h.same c, rfl, rfl⟩
    | succ most =>
      by_cases hc : isDigit c = true
      · obtain ⟨ds, s', t', hs, ht, hw, rfl, rfl⟩ := ih most
        exact ⟨c :: ds, s', t', by simp [hc, hs], by simp [hc, ht], hw, rfl, rfl⟩
      · exact ⟨[], _, _, by simp [hc], by simp [hc], h.same c, rfl, rfl⟩
  | @space s t h _ =>
    have hspace : isDigit ' ' = false := rfl
    refine ⟨[], _, _, ?_, ?_, h.space, rfl, rfl⟩
    · cases most <;> simp [hspace]
    · cases most <;> simp [hspace]

theorem takeDigits_wider {least most : Nat} (h : Wider s t)
    (hs : takeDigits least most s = some (n, s')) : ∃ t', takeDigits least most t = some (n, t') ∧ Behind s t s' t' := by
  obtain ⟨ds, a, b, hsd, htd, hw, ha, hb⟩ := exists_digits h most
  simp only [takeDigits, hsd] at hs
  split at hs
  · cases hs
  · next hleast =>
    obtain ⟨rfl, rfl⟩ := Prod.mk.inj (Option.some.inj hs)
    refine ⟨t.drop ds.length, by simp only [takeDigits, htd, if_neg hleast], ?_, ds, ?_, ?_⟩
    · rwa [ha, hb, List.drop_left, List.drop_left]
    · rw [ha, List.drop_left]
    · rw [hb, List.drop_left]

theorem takeChar_wider (hc : c ≠ ' ') (h : Wider s t) (hs : takeChar c s = some s') :
    ∃ t', takeChar c t = some t' ∧ Behind s t s' t' := by
  cases h with
  | nil => cases hs
  | @same s t d h =>
    simp only [takeChar] at hs ⊢
    split at hs
    · next hd =>
      obtain rfl := Option.some.inj hs
      exact ⟨t, if_pos hd, h, [d], rfl, rfl⟩
    · cases hs
  | space _ => simp [takeChar, hc] at hs

/-- A sign in front of a zone is followed by hours, and by minutes at will. -/
theorem isSome_zone?_iff : (zone? s).isSome = true ↔ s = [] ∨ s = ['Z'] ∨ ∃ c r h rest,
    s = c :: r ∧ (c = '+' ∨ c = '-') ∧ takeDigits 1 2 r = some (h, rest) ∧
      (rest = [] ∨ ∃ more m, rest = ':' :: more ∧ takeDigits 2 2 more = some (m, [])) := by
  unfold zone?
  split
  · simp
  · simp
  · next c r hz =>
    have hz' : ¬ (c = 'Z' ∧ r = []) := fun h => hz h.1 h.2
    simp only [Bool.or_eq_true, decide_eq_true_eq, Option.isSome_iff_exists, Option.bind_eq_some_iff,
      bind, pure, Option.ite_none_right_eq_some]
    constructor
    · rintro ⟨_, hc, ⟨hours, rest⟩, hhours, hminutes⟩
      refine .inr (.inr ⟨c, r, hours, rest, rfl, hc, hhours, ?_⟩)
      dsimp only at hminutes
      split at hminutes
      · exact .inl rfl
      · next more =>
        obtain ⟨⟨m, last⟩, hm, hlast⟩ := Option.bind_eq_some_iff.mp hminutes
        cases last with
        | nil => exact .inr ⟨more, m, rfl, hm⟩
        | cons _ _ => cases hlast
      · cases hminutes
    · rintro (h | h | ⟨_, _, hours, rest, heq, hc, hhours, hrest⟩)
      · cases h
      · exact absurd (List.cons.inj h) hz'
      · obtain ⟨rfl, rfl⟩ := List.cons.inj heq
        rcases hrest with rfl | ⟨more, m, rfl, hm⟩
        · exact ⟨_, hc, ⟨hours, []⟩, hhours, rfl⟩
        · exact ⟨_, hc, ⟨hours, ':' :: more⟩, hhours, Option.bind_eq_some_iff.mpr ⟨_, hm, rfl⟩⟩

theorem zone?_wider (h : Wider s t) (hs : (zone? s).isSome = true) : (zone? t).isSome = true := by
  rw [isSome_zone?_iff] at hs ⊢
  rcases hs with rfl | rfl | ⟨c, r, hours, rest, rfl, hc, hhours, hrest⟩
  · exact .inl h.eq_nil
  · exact .inr (.inl (h.eq_of_no_space (by decide)))
  · have hspace : c ≠ ' ' := by rcases hc with rfl | rfl <;> decide
    cases h with
    | space _ => exact absurd rfl hspace
    | @same _ t _ h =>
      obtain ⟨rest', hhours', hwide, -⟩ := takeDigits_wider h hhours
      refine .inr (.inr ⟨c, t, hours, rest', rfl, hc, hhours', ?_⟩)
      rcases hrest with rfl | ⟨more, minutes, rfl, hminutes⟩
      · exact .inl hwide.eq_nil
      · cases hwide with
        | same _ hwide =>
          obtain ⟨last, hminutes', hlast, -⟩ := takeDigits_wider hwide hminutes
          obtain rfl := hlast.eq_nil
          exact .inr ⟨_, minutes, rfl, hminutes'⟩

/-- What is behind the seconds of a time and their fraction. -/
def behindFraction : List Char → List Char
  | '.' :: r => r.dropWhile isDigit
  | r => r

theorem isSome_time?_iff : (time? s).isSome = true ↔ ∃ hour a b minute c d second e,
    takeDigits 1 2 s = some (hour, a) ∧ takeChar ':' a = some b ∧
      takeDigits 2 2 b = some (minute, c) ∧ takeChar ':' c = some d ∧
      takeDigits 2 2 d = some (second, e) ∧
      (zone? ((behindFraction e).dropWhile isSpaceOrTab)).isSome = true := by
  simp only [time?, Option.isSome_iff_exists, Option.bind_eq_some_iff, bind, pure]
  have hfraction : ∀ e : List Char, (match e with
      | '.' :: r => (r.takeWhile isDigit, r.dropWhile isDigit)
      | r => (([] : List Char), r)).2 = behindFraction e := by
    intro e
    unfold behindFraction
    split <;> rfl
  constructor
  · rintro ⟨_, ⟨hour, a⟩, ha, b, hb, ⟨minute, c⟩, hc, d, hd, ⟨second, e⟩, he, z, hz, -⟩
    refine ⟨hour, a, b, minute, c, d, second, e, ha, hb, hc, hd, he, z, ?_⟩
    rw [← hfraction]
    exact hz
  · rintro ⟨hour, a, b, minute, c, d, second, e, ha, hb, hc, hd, he, z, hz⟩
    rw [← hfraction] at hz
    exact ⟨_, ⟨hour, a⟩, ha, b, hb, ⟨minute, c⟩, hc, d, hd, ⟨second, e⟩, he, z, hz, rfl⟩

theorem behindFraction_wider (h : Wider s t) : Wider (behindFraction s) (behindFraction t) := by
  cases h with
  | nil => exact .nil
  | space h => exact h.space
  | @same s t c h =>
    by_cases hc : c = '.'
    · subst hc
      exact h.dropWhile
    · have hstays : ∀ r, behindFraction (c :: r) = c :: r := by
        intro r
        unfold behindFraction
        split
        · next heq => exact absurd (List.cons.inj heq).1 hc
        · rfl
      rw [hstays, hstays]
      exact h.same c

theorem time?_wider (h : Wider s t) (hs : (time? s).isSome = true) : (time? t).isSome = true := by
  rw [isSome_time?_iff] at hs ⊢
  obtain ⟨hour, a, b, minute, c, d, second, e, ha, hb, hc, hd, he, hz⟩ := hs
  obtain ⟨a', ha', hwa, -⟩ := takeDigits_wider h ha
  obtain ⟨b', hb', hwb, -⟩ := takeChar_wider (by decide) hwa hb
  obtain ⟨c', hc', hwc, -⟩ := takeDigits_wider hwb hc
  obtain ⟨d', hd', hwd, -⟩ := takeChar_wider (by decide) hwc hd
  obtain ⟨e', he', hwe, -⟩ := takeDigits_wider hwd he
  exact ⟨hour, a', b', minute, c', d', second, e', ha', hb', hc', hd', he',
    zone?_wider (behindFraction_wider hwe).dropWhile hz⟩

/-- A date, and what stands behind it. -/
def Dated (s rest : List Char) : Prop := ∃ year a b month c d day,
  takeDigits 4 4 s = some (year, a) ∧ takeChar '-' a = some b ∧ takeDigits 1 2 b = some (month, c) ∧
    takeChar '-' c = some d ∧ takeDigits 1 2 d = some (day, rest)

theorem Dated.wider {rest : List Char} (h : Wider s t) (hs : Dated s rest) :
    ∃ rest', Dated t rest' ∧ Behind s t rest rest' := by
  obtain ⟨year, a, b, month, c, d, day, ha, hb, hc, hd, he⟩ := hs
  obtain ⟨a', ha', hwa⟩ := takeDigits_wider h ha
  obtain ⟨b', hb', hwb⟩ := takeChar_wider (by decide) hwa.1 hb
  obtain ⟨c', hc', hwc⟩ := takeDigits_wider hwb.1 hc
  obtain ⟨d', hd', hwd⟩ := takeChar_wider (by decide) hwc.1 hd
  obtain ⟨e', he', hwe⟩ := takeDigits_wider hwd.1 he
  exact ⟨e', ⟨year, a', b', month, c', d', day, ha', hb', hc', hd', he'⟩,
    (((hwa.trans hwb).trans hwc).trans hwd).trans hwe⟩

theorem isStamp_iff : isStamp s = true ↔ ∃ rest, Dated s rest ∧ ((rest = [] ∧ s.length = 10) ∨
    ∃ c after, rest = c :: after ∧ (((c = 'T' ∨ c = 't') ∧ (time? after).isSome = true) ∨
      (isSpaceOrTab c = true ∧ (time? (after.dropWhile isSpaceOrTab)).isSome = true))) := by
  constructor
  · intro hs
    unfold isStamp at hs
    split at hs
    · next st hst =>
      simp only [stamp?, Option.bind_eq_some_iff, bind] at hst
      obtain ⟨⟨year, a⟩, ha, b, hb, ⟨month, c⟩, hc, d, hd, ⟨day, rest⟩, he, hrest⟩ := hst
      refine ⟨rest, ⟨year, a, b, month, c, d, day, ha, hb, hc, hd, he⟩, ?_⟩
      dsimp only at hrest
      split at hrest
      · obtain rfl := Option.some.inj hrest
        simpa using hs
      · next e after =>
        obtain ⟨w, hw, -⟩ := Option.map_eq_some_iff.mp hrest
        refine .inr ⟨e, after, rfl, ?_⟩
        split at hw
        · next he => simp_all
        · split at hw
          · simp_all
          · cases hw
    · cases hs
  · rintro ⟨rest, ⟨year, a, b, month, c, d, day, ha, hb, hc, hd, he⟩, hrest⟩
    simp only [isStamp, stamp?, ha, hb, hc, hd, he, bind, Option.bind]
    rcases hrest with ⟨rfl, hlength⟩ | ⟨e, after, rfl, ⟨hmark, htime⟩ | ⟨hblank, htime⟩⟩
    · simp [hlength]
    · obtain ⟨w, hw⟩ := Option.isSome_iff_exists.mp htime
      rcases hmark with rfl | rfl <;> simp [hw]
    · obtain ⟨w, hw⟩ := Option.isSome_iff_exists.mp htime
      have hmark : (decide (e = 'T') || decide (e = 't')) = false := by
        simp only [Bool.or_eq_false_iff, decide_eq_false_iff_not]
        constructor <;> rintro rfl <;> cases hblank
      simp [hmark, hblank, hw]

theorem isStamp_wider (h : Wider s t) (hs : isStamp s = true) : isStamp t = true := by
  rw [isStamp_iff] at hs ⊢
  obtain ⟨rest, hdated, hrest⟩ := hs
  obtain ⟨rest', hdated', hwide, front, rfl, rfl⟩ := hdated.wider h
  refine ⟨rest', hdated', ?_⟩
  rcases hrest with ⟨rfl, hlength⟩ | ⟨c, after, rfl, htime⟩
  · obtain rfl := hwide.eq_nil
    exact .inl ⟨rfl, hlength⟩
  · refine .inr ?_
    cases hwide with
    | @same _ after' _ hafter =>
      refine ⟨c, after', rfl, htime.imp ?_ ?_⟩
      · exact fun h => ⟨h.1, time?_wider hafter h.2⟩
      · exact fun h => ⟨h.1, time?_wider hafter.dropWhile h.2⟩
    | @space _ after' hafter =>
      refine ⟨' ', after', rfl, .inr ⟨rfl, ?_⟩⟩
      have hblanks := @Wider.dropWhile _ _ isSpaceOrTab hafter
      rw [List.dropWhile_cons_of_pos (show isSpaceOrTab ' ' = true from rfl)] at hblanks
      refine time?_wider hblanks ?_
      simpa [isSpaceOrTab] using htime

/-! ## Other forms -/

theorem mem_dropWhile {p : Char → Bool} (hp : p c = false) (h : c ∈ s) : c ∈ s.dropWhile p := by
  rw [← @List.takeWhile_append_dropWhile _ p s, List.mem_append] at h
  refine h.resolve_left fun hmem => ?_
  rw [List.mem_takeWhile_imp hmem] at hp
  cases hp

theorem mem_withoutSign (h : ' ' ∈ s) : ' ' ∈ withoutSign s := by
  unfold withoutSign
  split <;> simp_all

theorem not_all_digits {p : Char → Bool} (hp : p ' ' = false) (h : ' ' ∈ s) : s.all p = false :=
  List.all_eq_false.mpr ⟨' ', h, by simp [hp]⟩

theorem not_isExponent {demanded : Bool} (h : ' ' ∈ s) : isExponent demanded s = false := by
  have hdigits : ∀ ds : List Char, ' ' ∈ ds → ds.all isDigit = false := fun _ => not_all_digits rfl
  unfold isExponent
  split
  · rfl
  · next c s =>
    rcases List.mem_cons.mp h with rfl | h
    · rfl
    · split
      · simp [hdigits _ (by simpa using h)]
      · simp [hdigits _ (by simpa using h)]
      · simp [hdigits _ h]

theorem not_isNumber (h : ' ' ∈ s) : isNumber .core s = false := by
  have hr := mem_withoutSign h
  have hdrop : ∀ ds : List Char, ' ' ∈ ds → ' ' ∈ ds.dropWhile isDigitOrGap :=
    fun _ hds => mem_dropWhile rfl hds
  have hwords : ∀ (words : List (List Char)) (w : List Char), (∀ w ∈ words, ' ' ∉ w) → ' ' ∈ w →
      words.contains w = false := by
    intro words w hwords hw
    rw [← Bool.not_eq_true, List.contains_iff_mem]
    exact fun hmem => hwords w hmem hw
  unfold isNumber
  dsimp only
  split
  · next t ht =>
    have hmem : ' ' ∈ t := by simpa [ht] using hr
    have hne : (t.dropWhile isDigitOrGap).isEmpty = false := by
      simpa using List.ne_nil_of_mem (hdrop t hmem)
    rw [not_isExponent (hdrop t hmem), hne, hwords _ t (by decide) hmem, hwords _ t (by decide) hmem]
    simp
  · next c more _ hmore =>
    rw [hmore] at hr
    have hbehind := hdrop _ hr
    rw [hmore]
    generalize (c :: more).dropWhile isDigitOrGap = e at hbehind
    rw [Bool.or_eq_false_iff, Bool.and_eq_false_iff, Bool.and_eq_false_iff]
    refine ⟨.inl rfl, .inr ?_⟩
    split
    · next t =>
      have hmem : ' ' ∈ t := by simpa using hbehind
      have hne : (t.dropWhile isDigitOrGap).isEmpty = false := by
        simpa using List.ne_nil_of_mem (hdrop t hmem)
      rw [hne, not_isExponent (hdrop t hmem)]
      rfl
    · exact not_isExponent hbehind
  · rfl

theorem not_isBased {mark : Char} {p : Char → Bool} (hmark : mark ≠ ' ') (hp : p ' ' = false)
    (h : ' ' ∈ s) : isBased mark p s = false := by
  unfold isBased
  split
  · next c s =>
    by_cases hc : c = mark
    · have hmem : ' ' ∈ s := by simpa [hc, hmark.symm] using h
      simp [isSpaced, not_all_digits (p := fun c => p c || c = '_') (by simp [hp]) hmem]
    · simp [hc]
  · rfl

theorem not_isInt (h : ' ' ∈ s) : isInt .core s = false := by
  have hr := mem_withoutSign h
  have hdigits : isSpaced isDigit (withoutSign s) = false :=
    not_all_digits (p := fun c => isDigit c || c = '_') (by decide) hr
  have hbits := @not_isBased (withoutSign s) 'b' (fun c => c = '0' || c = '1') (by decide) rfl hr
  simp only [isInt, hbits, hdigits,
    not_isBased (show 'x' ≠ ' ' by decide) (show isHexDigit ' ' = false from rfl) hr,
    not_isBased (show 'o' ≠ ' ' by decide) (show isOctal ' ' = false from rfl) hr]
  simp

theorem not_word {words : List String} (hwords : ∀ w ∈ words, ' ' ∉ w.toList) (h : ' ' ∈ s) :
    words.contains (String.ofList s) = false := by
  rw [← Bool.not_eq_true, List.contains_iff_mem]
  intro hmem
  exact hwords _ hmem (by simpa using h)

theorem withoutLastBreak_eq (h : '\n' ∉ s) : withoutLastBreak s = s := by
  have hlast : s.getLast? ≠ some '\n' := fun hl => h (List.mem_of_getLast? hl)
  simp [withoutLastBreak, hlast]

/-- With spaces in it a text is itself or a time. -/
theorem kindOf_of_space (hspace : ' ' ∈ s) (hline : '\n' ∉ s) :
    kindOf .core (String.ofList s) = if isStamp s then .time else .text := by
  have hwords : ∀ words : List String, (∀ w ∈ words, ' ' ∉ w.toList) →
      words.contains (String.ofList s) = false := fun _ hwords => not_word hwords hspace
  have hword : ∀ w : String, ' ' ∉ w.toList → (String.ofList s == w) = false := by
    intro w hw
    rw [beq_eq_false_iff_ne]
    rintro rfl
    exact hw (by simpa using hspace)
  unfold kindOf
  simp only [String.toList_ofList, withoutLastBreak_eq hline, not_isNumber hspace, not_isInt hspace,
    hwords _ (show ∀ w ∈ trueWords .core ++ falseWords .core, ' ' ∉ w.toList by decide),
    hwords _ (show ∀ w ∈ nullWords, ' ' ∉ w.toList by decide),
    hwords _ (show ∀ w ∈ strayMarks, ' ' ∉ w.toList by decide), hword "<<" (by decide),
    hword "=" (by decide)]
  simp

/-- A text that is only itself stays so with fewer spaces. -/
theorem kindOf_wider (h : Wider s t) (ht : '\n' ∉ t)
    (hkind : kindOf .core (String.ofList t) = .text) : kindOf .core (String.ofList s) = .text := by
  by_cases hspace : ' ' ∈ s
  · rw [kindOf_of_space hspace fun hmem => ht (h.mem hmem)]
    rw [kindOf_of_space (h.mem hspace) ht] at hkind
    refine if_neg fun hstamp => ?_
    rw [if_pos (isStamp_wider h hstamp)] at hkind
    cases hkind
  · rwa [← h.eq_of_no_space hspace]

end Sourcebook.Yaml
