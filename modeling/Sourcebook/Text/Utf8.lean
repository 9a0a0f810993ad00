-- Texts as bytes. Reading names the first bytes that are no text, where they stand
-- and what is wrong with them.
import Sourcebook.Text.Lines
import Sourcebook.Text.Quoted

namespace Sourcebook.Text

inductive ByteFault where
  | badStart
  | badContinuation
  | cutShort
  deriving Repr, DecidableEq

def ByteFault.text : ByteFault → String
  | .badStart => "invalid start byte"
  | .badContinuation => "invalid continuation byte"
  | .cutShort => "unexpected end of data"

/-- The first bytes that are no text. -/
structure Undecodable where
  fault : ByteFault
  position : Nat
  /-- The bytes at fault: one, unless a longer start was right. -/
  bytes : List UInt8
  deriving Repr, DecidableEq

def Undecodable.message (u : Undecodable) : String :=
  "'utf-8' codec can't decode " ++
    (match u.bytes with
      | [b] => "byte 0x" ++ String.ofList (hexText 2 b.toNat) ++ " in position " ++ toString u.position
      | bs => "bytes in position " ++ toString u.position ++ "-"
          ++ toString (u.position + bs.length - 1))
    ++ ": " ++ u.fault.text

def isContinuation (b : UInt8) : Bool := 0x80 ≤ b && b ≤ 0xBF

/-- What may follow the first byte of three or four: no longer form than needed, no
half of a pair, nothing above the last code point. -/
def isSecond (a b : UInt8) : Bool :=
  if a == 0xE0 then 0xA0 ≤ b && b ≤ 0xBF
  else if a == 0xED then 0x80 ≤ b && b ≤ 0x9F
  else if a == 0xF0 then 0x90 ≤ b && b ≤ 0xBF
  else if a == 0xF4 then 0x80 ≤ b && b ≤ 0x8F
  else isContinuation b

/-- How many bytes a character takes, by its first byte. -/
def byteCount (a : UInt8) : Option Nat :=
  if a < 0x80 then some 1
  else if a < 0xC2 then none
  else if a < 0xE0 then some 2
  else if a < 0xF0 then some 3
  else if a < 0xF5 then some 4
  else none

def lowBits (b : UInt8) : Nat := b.toNat % 64

/-- The first character, or what is wrong with the bytes that it should take. -/
def firstChar (a : UInt8) (rest : List UInt8) : Except (ByteFault × List UInt8) Char :=
  match byteCount a, rest with
  | none, _ => .error (.badStart, [a])
  | some 1, _ => .ok (Char.ofNat a.toNat)
  | some _, [] => .error (.cutShort, [a])
  | some 2, b :: _ =>
    if isContinuation b then .ok (Char.ofNat (a.toNat % 32 * 64 + lowBits b))
    else .error (.badContinuation, [a])
  | some 3, b :: rest =>
    if !isSecond a b then .error (.badContinuation, [a])
    else
      match rest with
      | [] => .error (.cutShort, [a, b])
      | c :: _ =>
        if isContinuation c then .ok (Char.ofNat ((a.toNat % 16 * 64 + lowBits b) * 64 + lowBits c))
        else .error (.badContinuation, [a, b])
  | some _, b :: rest =>
    if !isSecond a b then .error (.badContinuation, [a])
    else
      match rest with
      | [] => .error (.cutShort, [a, b])
      | c :: rest =>
        if !isContinuation c then .error (.badContinuation, [a, b])
        else
          match rest with
          | [] => .error (.cutShort, [a, b, c])
          | d :: _ =>
            if isContinuation d then
              .ok (Char.ofNat (((a.toNat % 8 * 64 + lowBits b) * 64 + lowBits c) * 64 + lowBits d))
            else .error (.badContinuation, [a, b, c])

/-- The text of bytes from a position on, past the bytes of the last character. -/
def decodeFrom (position : Nat) : Nat → List UInt8 → Except Undecodable (List Char)
  | _, [] => .ok []
  | taken + 1, _ :: rest => decodeFrom (position + 1) taken rest
  | 0, a :: rest =>
    match firstChar a rest with
    | .error (fault, bytes) => .error ⟨fault, position, bytes⟩
    | .ok c => do
      let s ← decodeFrom (position + 1) ((byteCount a).getD 1 - 1) rest
      return c :: s

def decode (bytes : List UInt8) : Except Undecodable (List Char) := decodeFrom 0 0 bytes

def encode (s : String) : List UInt8 := s.toUTF8.toList

/-- The text of a file, with line feeds for all line ends. -/
def decodeFile (bytes : List UInt8) : Except Undecodable (List Char) :=
  (decode bytes).map unifyLineEnds

end Sourcebook.Text
