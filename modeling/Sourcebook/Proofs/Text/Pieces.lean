-- The laws of cutting and joining: pieces without the separator come back as they were.
import Mathlib
import Sourcebook.Text.Lines

namespace Sourcebook.Text

variable {sep : Char}

theorem splitOn_of_not_mem {s : List Char} (h : sep ∉ s) : splitOn sep s = [s] := by
  induction s with
  | nil => rfl
  | cons c s ih =>
    rw [List.mem_cons, not_or] at h
    simp only [splitOn, Ne.symm h.1, if_false, ih h.2]

theorem splitOn_append {p : List Char} (h : sep ∉ p) (s : List Char) :
    splitOn sep (p ++ sep :: s) = p :: splitOn sep s := by
  induction p with
  | nil => simp [splitOn]
  | cons c p ih =>
    rw [List.mem_cons, not_or] at h
    simp only [List.cons_append, splitOn, Ne.symm h.1, if_false, ih h.2]

/-- A separator keeps the pieces before it from those behind it. -/
theorem splitOn_append_cons (r s : List Char) :
    splitOn sep (r ++ sep :: s) = splitOn sep r ++ splitOn sep s := by
  induction r with
  | nil => simp [splitOn]
  | cons c r ih =>
    simp only [List.cons_append, splitOn]
    split
    · rw [ih, List.cons_append]
    · rw [ih]
      cases hr : splitOn sep r with
      | nil => exact absurd hr (splitOn_ne_nil sep r)
      | cons p ps => rfl

/-- No piece holds the separator. -/
theorem not_mem_of_mem_splitOn {s p : List Char} (h : p ∈ splitOn sep s) : sep ∉ p := by
  induction s generalizing p with
  | nil => simp_all [splitOn]
  | cons c s ih =>
    simp only [splitOn] at h
    split at h
    · rcases List.mem_cons.mp h with rfl | h
      · simp
      · exact ih h
    · next hc =>
      cases hs : splitOn sep s with
      | nil => exact absurd hs (splitOn_ne_nil sep s)
      | cons q qs =>
        rw [hs] at h ih
        rcases List.mem_cons.mp h with rfl | h
        · rw [List.mem_cons, not_or]
          exact ⟨Ne.symm hc, ih List.mem_cons_self⟩
        · exact ih (List.mem_cons_of_mem _ h)

theorem joinWith_eq_intercalate (ps : List (List Char)) :
    joinWith sep ps = [sep].intercalate ps := by
  induction ps with
  | nil => rfl
  | cons p ps ih =>
    cases ps with
    | nil => simp [joinWith]
    | cons q qs => simp [joinWith, ih]

theorem splitOn_joinWith {ps : List (List Char)} (hne : ps ≠ []) (h : ∀ p ∈ ps, sep ∉ p) :
    splitOn sep (joinWith sep ps) = ps := by
  induction ps with
  | nil => exact absurd rfl hne
  | cons p ps ih =>
    have hp := h p List.mem_cons_self
    cases ps with
    | nil => exact splitOn_of_not_mem hp
    | cons q qs =>
      simp only [joinWith]
      rw [splitOn_append hp, ih (by simp) fun r hr => h r (List.mem_cons_of_mem _ hr)]

theorem joinWith_cons {ps : List (List Char)} (hne : ps ≠ []) (p : List Char) :
    joinWith sep (p :: ps) = p ++ sep :: joinWith sep ps := by
  cases ps with
  | nil => exact absurd rfl hne
  | cons q qs => rfl

/-- A piece stands in the joined text as it is. -/
theorem infix_joinWith {ps : List (List Char)} {p : List Char} (h : p ∈ ps) :
    p <:+: joinWith sep ps := by
  induction ps with
  | nil => cases h
  | cons q qs ih =>
    cases qs with
    | nil => rw [List.mem_singleton.mp h]; exact List.infix_rfl
    | cons r rs =>
      rw [joinWith_cons (by simp)]
      rcases List.mem_cons.mp h with rfl | h
      · exact (List.prefix_append _ _).isInfix
      · exact (ih h).trans ((List.suffix_cons _ _).trans (List.suffix_append _ _)).isInfix

theorem infix_of_mem_splitOn {s p : List Char} (h : p ∈ splitOn sep s) : p <:+: s := by
  have hjoined : p <:+: joinWith sep (splitOn sep s) := infix_joinWith h
  rwa [joinWith_splitOn] at hjoined

theorem joinWith_append {ps qs : List (List Char)} (hps : ps ≠ []) (hqs : qs ≠ []) :
    joinWith sep (ps ++ qs) = joinWith sep ps ++ sep :: joinWith sep qs := by
  induction ps with
  | nil => exact absurd rfl hps
  | cons p ps ih =>
    cases ps with
    | nil => exact joinWith_cons hqs p
    | cons r rs =>
      simp only [List.cons_append, joinWith, List.append_assoc]
      rw [← List.cons_append, ih (by simp)]

/-- A last piece behind the others is the last piece that comes back. -/
theorem joinWith_snoc {ps : List (List Char)} (hne : ps ≠ []) (p : List Char) :
    joinWith sep (ps ++ [p]) = joinWith sep ps ++ sep :: p :=
  joinWith_append hne (List.cons_ne_nil p [])

/-- What starts with a separator stands behind the text before the first one. -/
theorem suffix_append_of_not_mem {p r t : List Char} (h : sep ∉ p) :
    sep :: t <:+ p ++ r ↔ sep :: t <:+ r := by
  induction p with
  | nil => rfl
  | cons c p ih =>
    rw [List.mem_cons, not_or] at h
    rw [List.cons_append, List.suffix_cons_iff, ih h.2, or_iff_right]
    intro he
    exact h.1 (List.cons.inj he).1

/-- What follows a separator is some of the last pieces, joined. -/
theorem suffix_joinWith {ps : List (List Char)} (hne : ps ≠ []) (h : ∀ p ∈ ps, sep ∉ p)
    {t : List Char} : sep :: t <:+ sep :: joinWith sep ps ↔
      ∃ qs, qs ≠ [] ∧ qs <:+ ps ∧ t = joinWith sep qs := by
  induction ps with
  | nil => exact absurd rfl hne
  | cons p rest ih =>
    obtain ⟨hp, hrest⟩ := List.forall_mem_cons.mp h
    have hlater : sep :: t <:+ joinWith sep (p :: rest) ↔
        ∃ qs, qs ≠ [] ∧ qs <:+ rest ∧ t = joinWith sep qs := by
      cases rest with
      | nil =>
        constructor
        · intro ht
          exact absurd (ht.subset List.mem_cons_self) hp
        · rintro ⟨qs, hqs, hsuffix, -⟩
          exact absurd (List.suffix_nil.mp hsuffix) hqs
      | cons q qs =>
        rw [joinWith_cons (by simp), suffix_append_of_not_mem hp]
        exact ih (by simp) hrest
    rw [List.suffix_cons_iff, hlater]
    constructor
    · rintro (he | ⟨qs, hqs, hsuffix, rfl⟩)
      · exact ⟨p :: rest, by simp, List.suffix_rfl, (List.cons.inj he).2⟩
      · exact ⟨qs, hqs, hsuffix.trans (List.suffix_cons p rest), rfl⟩
    · rintro ⟨qs, hqs, hsuffix, rfl⟩
      rcases List.suffix_cons_iff.mp hsuffix with rfl | hsuffix
      · exact Or.inl rfl
      · exact Or.inr ⟨qs, hqs, hsuffix, rfl⟩

/-- A text with the separator in it has more than one piece. -/
theorem length_splitOn {s : List Char} (h : sep ∈ s) : 2 ≤ (splitOn sep s).length := by
  obtain ⟨p, r, rfl, hp⟩ := List.eq_append_cons_of_mem h
  rw [splitOn_append hp]
  have := List.length_pos_iff.mpr (splitOn_ne_nil sep r)
  simp only [List.length_cons]
  omega

end Sourcebook.Text
