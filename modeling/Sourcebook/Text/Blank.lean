-- Blank characters, and trimming. Every reader of this library trims with
-- these: directives, captured code, comment stripping and priorities.

namespace Sourcebook.Text

/-- White space of every script, the line and paragraph breaks, and the four
control characters that separate records. -/
def isBlank (c : Char) : Bool :=
  let n := c.toNat
  (9 ≤ n && n ≤ 13) || (28 ≤ n && n ≤ 32) || n == 0x85 || n == 0xA0 || n == 0x1680
    || (0x2000 ≤ n && n ≤ 0x200A) || n == 0x2028 || n == 0x2029 || n == 0x202F
    || n == 0x205F || n == 0x3000

/-- A text with nothing but blanks in it. -/
def allBlank (s : List Char) : Bool := s.all isBlank

def trimStart (s : List Char) : List Char := s.dropWhile isBlank

/-- Drops the blanks at the end: a character stays when it, or one after it, is
not blank. -/
def trimEnd : List Char → List Char
  | [] => []
  | c :: s =>
    match trimEnd s with
    | [] => if isBlank c then [] else [c]
    | kept => c :: kept

def trim (s : List Char) : List Char := trimEnd (trimStart s)

/-! ## Laws -/

theorem trimEnd_nil_iff (s : List Char) : trimEnd s = [] ↔ allBlank s = true := by
  induction s with
  | nil => simp [trimEnd, allBlank]
  | cons c s ih =>
    simp only [allBlank] at ih
    cases h : trimEnd s with
    | nil =>
      have hs := ih.1 h
      by_cases hc : isBlank c = true
      · simp only [trimEnd, h, allBlank, List.all_cons]
        simp [hc, hs]
      · simp only [trimEnd, h, allBlank, List.all_cons]
        simp [hc]
    | cons d t =>
      have hs : ¬ (List.all s isBlank = true) := fun hs => by simp [ih.2 hs] at h
      simp only [trimEnd, h, allBlank, List.all_cons]
      simp [hs]

end Sourcebook.Text
