-- The order of a set of numbers. The set is a row of places with room to spare, and a
-- number stands at the remainder that it leaves. Where that place is taken, it goes on to
-- the next free one, or to one further off.
import Sourcebook.Data.Value

namespace Sourcebook.Data

/-- Numbers count modulo this prime. -/
def numberModulus : Nat := Nat.pow 2 61 - 1

/-- A number with a sign in 64 bits. Minus one is used for other things, and minus two
stands for it. -/
def signedWord (negative : Bool) (n : Nat) : Nat :=
  if negative && n != 0 then Nat.pow 2 64 - max 2 n else n

/-- The word that gives a number its place. Equal numbers have equal words. -/
def Value.word? : Value → Option Nat
  | .bool b => some b.toNat
  | .int n => some (signedWord (n < 0) (n.natAbs % numberModulus))
  | .number (.finite s m e) =>
    some (signedWord s (m * Nat.pow 2 (e.emod 61).toNat % numberModulus))
  | .number (.infinite s) => some (signedWord s 314159)
  | _ => none

/-- How many places a set of a number of members has. -/
def rowSize (count : Nat) : Nat := if count < 5 then 8 else Nat.pow 2 (Nat.log2 (2 * count) + 1)

/-- A place with its neighbours behind it, if the row is long enough for all of them. -/
def neighbours (size i : Nat) : List Nat := if i + 9 < size then List.range' i 10 else [i]

/-- The place for a word. The steps to a place further off end up as all places in turn. -/
def freePlace (size : Nat) (taken : List Nat) : Nat → Nat → Nat → Nat
  | 0, _, i => i
  | fuel + 1, word, i =>
    match (neighbours size i).find? (!taken.contains ·) with
    | some place => place
    | none => freePlace size taken fuel (word / 32) ((5 * i + 1 + word / 32) % size)

/-- The members with their places, in the order in which they come in. -/
def placed {α : Type} (size : Nat) (done : List (Nat × α)) : List (Nat × α) → List (Nat × α)
  | [] => done
  | (word, member) :: rest =>
    let place := freePlace size (done.map (·.1)) (size + 64) word (word % size)
    placed size (done ++ [(place, member)]) rest

/-- The members in the order of their places. Where some are no numbers, they stay in the
order in which they came. -/
def setOrder {α : Type} (word? : α → Option Nat) (members : List α) : List α :=
  match members.mapM (fun m => (word? m).map (·, m)) with
  | none => members
  | some words =>
    ((placed (rowSize members.length) [] words).mergeSort fun a b => a.1 ≤ b.1).map (·.2)

end Sourcebook.Data
