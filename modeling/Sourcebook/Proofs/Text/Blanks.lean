-- Trimming: what it drops, and what it leaves when it meets a character that is not blank.
import Mathlib
import Sourcebook.Text.Blank

namespace Sourcebook.Text

variable {gap s tail : List Char}

theorem trimStart_append (h : allBlank gap = true) : trimStart (gap ++ s) = trimStart s :=
  List.dropWhile_append_of_pos (List.all_eq_true.mp h)

theorem trimStart_of_solid (h : ∀ c ∈ s.head?, isBlank c = false) : trimStart s = s := by
  cases s with
  | nil => rfl
  | cons c s => simp [trimStart, h c rfl]

/-- Blanks at the front, and what is left without them. -/
theorem exists_gap (s : List Char) : ∃ gap, s = gap ++ trimStart s ∧ allBlank gap = true :=
  ⟨s.takeWhile isBlank, List.takeWhile_append_dropWhile.symm, by simp [allBlank]⟩

theorem trimEnd_append (s : List Char) (h : allBlank tail = true) :
    trimEnd (s ++ tail) = trimEnd s := by
  induction s with
  | nil => exact (trimEnd_nil_iff tail).mpr h
  | cons c s ih => rw [List.cons_append, trimEnd, trimEnd, ih]

theorem trimEnd_concat (s : List Char) {c : Char} (h : isBlank c = false) :
    trimEnd (s ++ [c]) = s ++ [c] := by
  induction s with
  | nil => simp [trimEnd, h]
  | cons d s ih =>
    rw [List.cons_append, trimEnd, ih]
    split
    · next hnil => simp at hnil
    · rfl

theorem exists_trimEnd (s : List Char) : ∃ tail, s = trimEnd s ++ tail ∧ allBlank tail = true := by
  induction s with
  | nil => exact ⟨[], rfl, rfl⟩
  | cons c s ih =>
    obtain ⟨tail, hs, htail⟩ := ih
    rw [trimEnd]
    split
    · next hnil =>
      rw [hnil, List.nil_append] at hs
      subst hs
      split
      · next hc => exact ⟨c :: s, rfl, by simpa [allBlank, hc] using htail⟩
      · exact ⟨s, rfl, htail⟩
    · exact ⟨tail, congrArg (c :: ·) hs, htail⟩

theorem exists_trim (s : List Char) : ∃ gap tail, s = gap ++ (trim s ++ tail) ∧
    allBlank gap = true ∧ allBlank tail = true := by
  obtain ⟨gap, hs, hgap⟩ := exists_gap s
  obtain ⟨tail, ht, htail⟩ := exists_trimEnd (trimStart s)
  exact ⟨gap, tail, hs.trans (congrArg (gap ++ ·) ht), hgap, htail⟩

/-- What stands between two characters that are not blank is left as it is. -/
theorem trim_of_solid {c d : Char} (inner : List Char) (hgap : allBlank gap = true)
    (hc : isBlank c = false) (hd : isBlank d = false) (htail : allBlank tail = true) :
    trim (gap ++ c :: (inner ++ d :: tail)) = c :: (inner ++ [d]) := by
  have hstart : trimStart (c :: (inner ++ d :: tail)) = c :: (inner ++ d :: tail) :=
    trimStart_of_solid fun b hb => by cases hb; exact hc
  have hsplit : c :: (inner ++ d :: tail) = (c :: inner ++ [d]) ++ tail := by simp
  rw [trim, trimStart_append hgap, hstart, hsplit, trimEnd_append _ htail, trimEnd_concat _ hd]
  rfl

end Sourcebook.Text
