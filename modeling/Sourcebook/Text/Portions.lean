-- A file in portions. Bytes are taken from it in blocks and become characters, which are
-- handed out a portion at a time. What is wrong with a block shows when it is taken.
import Sourcebook.Text.Utf8

namespace Sourcebook.Text

/-- How many bytes a block has at least. -/
def blockBytes : Nat := 8192

/-- How many characters a portion has; the last one has fewer. -/
def portionChars : Nat := 4096

/-- A file that is taken block by block. -/
structure Feed where
  /-- The bytes that are not taken. -/
  bytes : List UInt8
  /-- The bytes at the end of the last block that need the next one: those of a character
  that is cut off, and a return, which may belong to a line feed. -/
  kept : List UInt8
  /-- The characters that are not handed out. -/
  chars : List Char
  /-- How many bytes the last block had, and how many characters they made. -/
  size : Nat
  made : Nat

namespace Feed

def ofBytes (bytes : List UInt8) : Feed := ⟨bytes, [], [], 0, 0⟩

/-- How many of the bytes make whole characters. -/
def wholeBytes (bytes : List UInt8) : Except Undecodable Nat :=
  match decode bytes with
  | .ok _ => .ok bytes.length
  | .error u => if u.fault = .cutShort then .ok u.position else .error u

/-- A block is larger where the last one had more than two bytes for a character. -/
def blockSize (f : Feed) (wanted : Nat) : Nat := max blockBytes (wanted * f.size / f.made)

/-- Takes a block, or what was kept when no bytes are left. -/
def takeBlock (f : Feed) (wanted : Nat) : Except Undecodable Feed := do
  let block := f.bytes.take (f.blockSize wanted)
  if block.isEmpty then
    let s ← decodeFile f.kept
    return ⟨[], [], f.chars ++ s, 0, 0⟩
  else
    let found := f.kept ++ block
    let n ← wholeBytes found
    let n := if (found.take n).getLast? == some 0x0D then n - 1 else n
    let s ← decodeFile (found.take n)
    return ⟨f.bytes.drop block.length, found.drop n, f.chars ++ s, block.length, s.length⟩

def isUsedUp (f : Feed) : Bool := f.bytes.isEmpty && f.kept.isEmpty

/-- Takes blocks until there are as many characters as are wanted. Each block has a byte
at least, but for the last. -/
def fill (wanted : Nat) : Nat → Feed → Except Undecodable Feed
  | 0, f => .ok f
  | fuel + 1, f =>
    if wanted ≤ f.chars.length || f.isUsedUp then .ok f
    else do fill wanted fuel (← f.takeBlock (wanted - f.chars.length))

/-- The portions from here on, up to a block that is no text. -/
def portionsFrom : Nat → Feed → List (List Char) × Option Undecodable
  | 0, _ => ([], none)
  | fuel + 1, f =>
    match f.fill portionChars (f.bytes.length + 1) with
    | .error u => ([], some u)
    | .ok f =>
      if f.chars.isEmpty then ([], none)
      else
        let (more, stop) := portionsFrom fuel { f with chars := f.chars.drop portionChars }
        (f.chars.take portionChars :: more, stop)

end Feed

/-- The portions of a file, and what is wrong with the block where they stop. -/
def portions (bytes : List UInt8) : List (List Char) × Option Undecodable :=
  (Feed.ofBytes bytes).portionsFrom (bytes.length + 1)

end Sourcebook.Text
