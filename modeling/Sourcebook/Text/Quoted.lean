-- A text shown between quotes, as messages and lists of values show it.
import Sourcebook.Text.Printable

namespace Sourcebook.Text

/-- The hexadecimal digits of a number, filled up with zeros to a width. -/
def hexText (width : Nat) (n : Nat) : List Char :=
  let ds := Nat.toDigits 16 n
  List.replicate (width - ds.length) '0' ++ ds

/-- Single quotes, unless only double quotes need no escape. -/
def quoteFor (s : List Char) : Char := if s.contains '\'' && !s.contains '"' then '"' else '\''

/-- The quote and the backslash take a backslash; what is not printable is written
as a letter or as its code point. -/
def escaped (quote : Char) (c : Char) : List Char :=
  if c = quote || c = '\\' then ['\\', c]
  else if c = '\n' then ['\\', 'n']
  else if c = '\r' then ['\\', 'r']
  else if c = '\t' then ['\\', 't']
  else if isPrintable c then [c]
  else if c.toNat < 0x100 then '\\' :: 'x' :: hexText 2 c.toNat
  else if c.toNat < 0x10000 then '\\' :: 'u' :: hexText 4 c.toNat
  else '\\' :: 'U' :: hexText 8 c.toNat

def quoted (s : List Char) : List Char :=
  let q := quoteFor s
  q :: (s.flatMap (escaped q) ++ [q])

def quotedText (s : String) : String := String.ofList (quoted s.toList)

/-- A byte between quotes: a common character is itself, and every other byte takes its
number. -/
def escapedByte (quote : Char) (b : UInt8) : List Char :=
  if b < 0x80 then escaped quote (Char.ofNat b.toNat) else '\\' :: 'x' :: hexText 2 b.toNat

/-- Bytes between quotes, behind the letter that tells them from a text. -/
def quotedBytes (bs : List UInt8) : String :=
  let q := quoteFor (bs.map fun b => Char.ofNat b.toNat)
  String.ofList ('b' :: q :: (bs.flatMap (escapedByte q) ++ [q]))

end Sourcebook.Text
