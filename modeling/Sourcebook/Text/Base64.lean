-- Bytes written in an alphabet of 64 characters, four of them for three bytes. What is
-- not in the alphabet is passed over.

namespace Sourcebook.Text

/-- The value of a character of the alphabet. -/
def sextet? (c : Char) : Option Nat :=
  if 'A' ≤ c && c ≤ 'Z' then some (c.toNat - 'A'.toNat)
  else if 'a' ≤ c && c ≤ 'z' then some (c.toNat - 'a'.toNat + 26)
  else if '0' ≤ c && c ≤ '9' then some (c.toNat - '0'.toNat + 52)
  else if c = '+' then some 62
  else if c = '/' then some 63
  else none

/-- How far a group of four characters is read: how many of them, and the bits that no
byte has taken yet. -/
structure Group where
  count : Nat
  left : Nat

/-- The bits of one more character: the byte that they complete, if one, and the group
after them. -/
def Group.add (g : Group) (n : Nat) : Option UInt8 × Group :=
  match g.count with
  | 0 => (none, ⟨1, n⟩)
  | 1 => (some (UInt8.ofNat (g.left * 4 + n / 16)), ⟨2, n % 16⟩)
  | 2 => (some (UInt8.ofNat (g.left * 16 + n / 4)), ⟨3, n % 4⟩)
  | _ => (some (UInt8.ofNat (g.left * 64 + n)), ⟨0, 0⟩)

/-- Reads from within a group, behind a number of equals signs. A group that they fill up
ends the text, and a text that ends within a group is no bytes. -/
def base64From (g : Group) (signs : Nat) : List Char → Option (List UInt8)
  | [] => if g.count = 0 then some [] else none
  | c :: s =>
    if c = '=' then
      if g.count < 2 then base64From g signs s
      else if 4 ≤ g.count + signs + 1 then some []
      else base64From g (signs + 1) s
    else
      match sextet? c with
      | none => base64From g signs s
      | some n =>
        match g.add n with
        | (some b, g) => (base64From g 0 s).map (b :: ·)
        | (none, g) => base64From g 0 s

def decodeBase64 (s : List Char) : Option (List UInt8) := base64From ⟨0, 0⟩ 0 s

end Sourcebook.Text
