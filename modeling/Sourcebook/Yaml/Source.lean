-- A text that is read as far as it goes. A portion that is no text, or holds a character
-- that no text may hold, stops the reading once it is needed.
import Sourcebook.Text.Portions
import Sourcebook.Yaml.Characters
import Sourcebook.Yaml.Error

namespace Sourcebook.Yaml

structure Source where
  /-- What can be read. -/
  text : List Char
  /-- Why there is no more, where that is not the end. -/
  stop : Option Error
  deriving Repr

namespace Source

def notAllowed : Error := .malformed "a character that is not allowed"

/-- Portions are looked through one by one. -/
def ofPortions (portions : List (List Char)) (stop : Option Error) : Source :=
  let good := portions.takeWhile (·.all isAllowed)
  ⟨good.flatten, if good.length < portions.length then some notAllowed else stop⟩

/-- A text that is there as a whole. -/
def ofText (s : List Char) : Source := ofPortions [s] none

/-- A file. Its first two portions are taken together. -/
def ofBytes (bytes : List UInt8) : Source :=
  match Text.portions bytes with
  | (first :: second :: rest, stop) => ofPortions ((first ++ second) :: rest) (stop.map .undecodable)
  | (_, some u) => ⟨[], some (.undecodable u)⟩
  | (portions, none) => ofPortions portions none

end Source

end Sourcebook.Yaml
