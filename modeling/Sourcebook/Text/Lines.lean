-- Cutting a text at every separator, and joining pieces again. Lines are the
-- pieces between line feeds, path segments the pieces between slashes.

namespace Sourcebook.Text

/-- The pieces between the separators. There is always at least one piece. -/
def splitOn (sep : Char) : List Char → List (List Char)
  | [] => [[]]
  | c :: s =>
    if c = sep then [] :: splitOn sep s
    else
      match splitOn sep s with
      | [] => [[c]]
      | piece :: rest => (c :: piece) :: rest

/-- The pieces with one separator between neighbours. -/
def joinWith (sep : Char) : List (List Char) → List Char
  | [] => []
  | [piece] => piece
  | piece :: rest => piece ++ sep :: joinWith sep rest

/-- Only a line feed ends a line; other breaks belong to the text. -/
def splitLines (s : List Char) : List (List Char) := splitOn '\n' s

def joinLines (ls : List (List Char)) : List Char := joinWith '\n' ls

/-- A pair of carriage return and line feed, and a carriage return alone, count
as one line feed. -/
def unifyLineEnds : List Char → List Char
  | [] => []
  | '\r' :: '\n' :: s => '\n' :: unifyLineEnds s
  | c :: s => (if c = '\r' then '\n' else c) :: unifyLineEnds s

/-- The text without one carriage return at its end. -/
def dropReturn : List Char → List Char
  | [] => []
  | ['\r'] => []
  | c :: s => c :: dropReturn s

/-! ## Laws -/

theorem splitOn_ne_nil (sep : Char) (s : List Char) : splitOn sep s ≠ [] := by
  cases s with
  | nil => simp [splitOn]
  | cons c s =>
    simp only [splitOn]
    split
    · simp
    · split <;> simp

theorem joinWith_splitOn (sep : Char) (s : List Char) : joinWith sep (splitOn sep s) = s := by
  induction s with
  | nil => rfl
  | cons c s ih =>
    simp only [splitOn]
    split
    · next h =>
      cases hs : splitOn sep s with
      | nil => exact absurd hs (splitOn_ne_nil sep s)
      | cons p ps => rw [hs] at ih; simp [joinWith, ih, h]
    · next h =>
      cases hs : splitOn sep s with
      | nil => exact absurd hs (splitOn_ne_nil sep s)
      | cons p ps =>
        rw [hs] at ih
        cases ps with
        | nil => simp_all [joinWith]
        | cons q qs => simp_all [joinWith]

end Sourcebook.Text
