-- How far a reader of JSON goes. What it leaves is the end of the text, and where it makes an object
-- the text behind the blanks reaches from a brace to the brace that closes it.
import Mathlib
import Sourcebook.Json.Reader
import Sourcebook.Text.Blank

namespace Sourcebook.Json

open Data (Value)

variable {s r : List Char} {v : Value}

theorem skipSpace_suffix (s : List Char) : skipSpace s <:+ s := List.dropWhile_suffix _

theorem suffix_of_skipSpace {c : Char} {rest : List Char} (h : skipSpace s = c :: rest) :
    rest <:+ s :=
  (List.suffix_cons c rest).trans (h ▸ skipSpace_suffix s)

/-! ## Strings, numbers and words -/

theorem stringFrom_suffix {opening t : List Char} {taken : Nat}
    (h : stringFrom opening taken s = .ok (t, r)) : r <:+ s := by
  induction s generalizing taken t with
  | nil => cases taken <;> cases h
  | cons c s ih =>
    refine List.IsSuffix.trans ?_ (List.suffix_cons c s)
    cases taken with
    | succ taken => exact ih h
    | zero =>
      simp only [stringFrom, bind, Except.bind] at h
      split at h
      · cases h
        exact List.suffix_rfl
      · split at h
        · split at h
          · cases h
          · split at h
            · cases h
            · next p hp =>
              cases h
              exact ih hp
        · split at h
          · cases h
          · split at h
            · cases h
            · next p hp =>
              cases h
              exact ih hp

theorem wholePart_suffix (s : List Char) : (wholePart s).2 <:+ s := by
  unfold wholePart
  split
  · exact List.suffix_cons _ _
  · exact List.dropWhile_suffix _

theorem fractionPart_suffix (s : List Char) : (fractionPart s).2 <:+ s := by
  unfold fractionPart
  split
  · split
    · exact List.suffix_rfl
    · exact (List.dropWhile_suffix _).trans (List.suffix_cons _ _)
  · exact List.suffix_rfl

theorem exponentPart_suffix (s : List Char) : (exponentPart s).2 <:+ s := by
  unfold exponentPart
  split
  · next c r =>
    split
    · dsimp only
      split
      · exact List.suffix_rfl
      · refine (List.dropWhile_suffix _).trans (List.IsSuffix.trans ?_ (List.suffix_cons c r))
        split
        · exact List.suffix_cons _ _
        · exact List.suffix_cons _ _
        · exact List.suffix_rfl
    · exact List.suffix_rfl
  · exact List.suffix_rfl

theorem number_suffix (h : number s = .ok (v, r)) : r <:+ s ∧ ∀ m, v ≠ .map m := by
  have hfrom : ∀ start negative t, numberFrom start negative t = .ok (v, r) →
      r <:+ t ∧ ∀ m, v ≠ .map m := by
    intro start negative t h
    unfold numberFrom at h
    have hleft : (exponentPart (fractionPart (wholePart t).2).2).2 <:+ t :=
      (exponentPart_suffix _).trans ((fractionPart_suffix _).trans (wholePart_suffix t))
    split at h
    · cases h
    · next whole rest hwhole =>
      rw [hwhole] at hleft
      dsimp only at h
      split at h
      · split at h
        · cases h
        · cases h
          exact ⟨hleft, fun m => Value.noConfusion⟩
      · cases h
        exact ⟨hleft, fun m => Value.noConfusion⟩
  unfold number at h
  split at h
  · obtain ⟨hsuffix, hmap⟩ := hfrom _ _ _ h
    exact ⟨hsuffix.trans (List.suffix_cons _ _), hmap⟩
  · exact hfrom _ _ _ h

theorem word?_suffix (h : word? s = some (v, r)) : r <:+ s ∧ ∀ m, v ≠ .map m := by
  unfold word? at h
  split at h <;> cases h <;>
    exact ⟨by simp [List.suffix_cons_iff], fun m => Value.noConfusion⟩

/-! ## Values -/

/-- A reader that leaves an end of every text, and the end behind a brace where it makes an object
of a text that opens with one. -/
def Closes (read : List Char → Except Fault (Value × List Char)) : Prop :=
  ∀ s v r, read s = .ok (v, r) → r <:+ s ∧ ∀ m, v = .map m → ∃ t, s = '{' :: t ∧ '}' :: r <:+ t

/-- Entries are read up to a brace. -/
theorem brace_of_entries {fuel : Nat} (hvalue : ∀ n < fuel, Closes (value n))
    {done : List (Value × Value)} (h : entries fuel done s = .ok (v, r)) : '}' :: r <:+ s := by
  induction fuel generalizing done s with
  | zero => cases h
  | succ fuel ih =>
    unfold entries at h
    split at h
    · next t =>
      simp only [bind, Except.bind] at h
      split at h
      · cases h
      · next name hname =>
        have hafter : name.2 <:+ '"' :: t := (stringFrom_suffix hname).trans (List.suffix_cons _ t)
        split at h
        · next hcolon =>
          split at h
          · cases h
          · next entry hentry =>
            have hleft : entry.2 <:+ '"' :: t :=
              ((hvalue fuel (Nat.lt_succ_self fuel) _ _ _ hentry).1.trans
                (skipSpace_suffix _)).trans ((suffix_of_skipSpace hcolon).trans hafter)
            split at h
            · next hbrace =>
              cases h
              exact List.IsSuffix.trans (hbrace ▸ skipSpace_suffix entry.2) hleft
            · next hcomma =>
              exact (ih (fun n hn => hvalue n (Nat.lt_succ_of_lt hn)) h).trans
                ((skipSpace_suffix _).trans ((suffix_of_skipSpace hcomma).trans hleft))
            · cases h
        · cases h
    · cases h

theorem suffix_of_items {fuel : Nat} (hvalue : ∀ n < fuel, Closes (value n)) {done : List Value}
    (h : items fuel done s = .ok (v, r)) : r <:+ s ∧ ∀ m, v ≠ .map m := by
  induction fuel generalizing done s with
  | zero => cases h
  | succ fuel ih =>
    unfold items at h
    simp only [bind, Except.bind] at h
    split at h
    · cases h
    · next item hitem =>
      have hleft : item.2 <:+ s := (hvalue fuel (Nat.lt_succ_self fuel) _ _ _ hitem).1
      split at h
      · next hbracket =>
        cases h
        exact ⟨(suffix_of_skipSpace hbracket).trans hleft, fun m => Value.noConfusion⟩
      · next hcomma =>
        obtain ⟨hsuffix, hmap⟩ := ih (fun n hn => hvalue n (Nat.lt_succ_of_lt hn)) h
        exact ⟨hsuffix.trans ((skipSpace_suffix _).trans ((suffix_of_skipSpace hcomma).trans hleft)),
          hmap⟩
      · cases h

theorem closes_value (fuel : Nat) : Closes (value fuel) := by
  induction fuel using Nat.strong_induction_on with
  | _ fuel ih =>
    intro s v r h
    -- what is no object only has to leave an end
    have hother : r <:+ s ∧ (∀ m, v ≠ .map m) →
        r <:+ s ∧ ∀ m, v = .map m → ∃ t, s = '{' :: t ∧ '}' :: r <:+ t :=
      fun ⟨hsuffix, hmap⟩ => ⟨hsuffix, fun m hm => absurd hm (hmap m)⟩
    cases fuel with
    | zero => cases h
    | succ fuel =>
      have hless : ∀ n < fuel, Closes (value n) := fun n hn => ih n (Nat.lt_succ_of_lt hn)
      unfold value at h
      split at h
      · simp only [Except.map] at h
        split at h
        · cases h
        · next read hread =>
          cases h
          exact hother ⟨(stringFrom_suffix hread).trans (List.suffix_cons _ _),
            fun m => Value.noConfusion⟩
      · next t =>
        have hbrace : '}' :: r <:+ t := by
          split at h
          · next hempty =>
            cases h
            exact hempty ▸ skipSpace_suffix t
          · exact (brace_of_entries hless h).trans (skipSpace_suffix t)
        exact ⟨((List.suffix_cons _ _).trans hbrace).trans (List.suffix_cons _ _),
          fun m _ => ⟨t, rfl, hbrace⟩⟩
      · next t =>
        split at h
        · next hempty =>
          cases h
          exact hother ⟨(suffix_of_skipSpace hempty).trans (List.suffix_cons _ _),
            fun m => Value.noConfusion⟩
        · obtain ⟨hsuffix, hmap⟩ := suffix_of_items hless h
          exact hother ⟨hsuffix.trans ((skipSpace_suffix t).trans (List.suffix_cons _ _)), hmap⟩
      · split at h
        · next p hword =>
          cases h
          exact hother (word?_suffix hword)
        · exact hother (number_suffix h)

/-! ## Whole texts -/

theorem isBlank_of_isSpace {c : Char} (h : isSpace c = true) : Text.isBlank c = true := by
  simp only [isSpace, Bool.or_eq_true, decide_eq_true_eq] at h
  rcases h with ((rfl | rfl) | rfl) | rfl <;> rfl

theorem allBlank_of_skipSpace_nil (h : skipSpace s = []) : Text.allBlank s = true := by
  rw [skipSpace, List.dropWhile_eq_nil_iff] at h
  exact List.all_eq_true.mpr fun c hc => isBlank_of_isSpace (h c hc)

/-- The text as a whole is an object. -/
def isObject (s : List Char) : Bool :=
  match read s with
  | .ok (.map _) => true
  | _ => false

theorem isObject_iff : isObject s = true ↔ ∃ m, read s = .ok (.map m) := by
  unfold isObject
  split
  · next m hm => simp [hm]
  · next hother => simpa using hother

/-- The text of an object has braces at both ends, and nothing but blanks around them. -/
theorem braces_of_read {m : List (Value × Value)} (h : read s = .ok (.map m)) :
    ∃ front inner behind, s = front ++ '{' :: (inner ++ '}' :: behind) ∧
      Text.allBlank front = true ∧ Text.allBlank behind = true := by
  have hdoc : document s = .ok (.map m) := by
    unfold read Except.mapError at h
    split at h
    · cases h
    · next w hw =>
      cases h
      exact hw
  unfold document at hdoc
  split at hdoc
  · cases hdoc
  · simp only [bind, Except.bind] at hdoc
    split at hdoc
    · cases hdoc
    · next p hp =>
      obtain ⟨w, r⟩ := p
      split at hdoc
      · next hend =>
        cases hdoc
        obtain ⟨-, hbraces⟩ := closes_value _ _ _ _ hp
        obtain ⟨t, hopen, inner, rfl⟩ := hbraces m rfl
        refine ⟨s.takeWhile isSpace, inner, r, ?_, ?_, allBlank_of_skipSpace_nil hend⟩
        · rw [← hopen, skipSpace, List.takeWhile_append_dropWhile]
        · exact List.all_eq_true.mpr fun c hc => isBlank_of_isSpace (List.mem_takeWhile_imp hc)
      · cases hdoc

end Sourcebook.Json
