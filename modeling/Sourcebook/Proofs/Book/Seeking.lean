-- What a search for an included file does. Its name and the file that it stands in decide which path
-- it looks at, and whether the selected files are asked when no file is there.
import Mathlib
import Sourcebook.Book.Include
import Sourcebook.Proofs.Disk.Searches

namespace Sourcebook

namespace Shelf

/-- What a search sets out to do. -/
inductive Aim where
  | broken
  | alone (p : Path)
  | first (p : Path)
  | selected

/-- The path that is looked at. -/
def Aim.path? : Aim → Option Path
  | .alone p | .first p => some p
  | .broken | .selected => none

/-- What a name in a file makes a search set out to do. -/
def aim (root : Location) (target : String) (current : Path) : Aim :=
  let p := Path.ofString target
  if p.isAbsolute then .alone p
  else if target.toList.head? == some '.' then
    let near := current.parent.join p
    if near.hasNull then .broken else .alone (Path.ofLocation (near.normal []))
  else if target.toList.contains '/' then
    if p.hasNull then .broken else .first (Path.ofLocation (p.normal root))
  else .selected

/-- What comes of what a search set out to do. -/
def seek (s : Shelf) (target : String) : Aim → Except LookupError Found
  | .broken => .error .nullInPath
  | .alone p => (s.fileAt p).map (plain s)
  | .first p => do
    match ← s.fileAt p with
    | some direct => return plain s (some direct)
    | none => s.amongListed target
  | .selected => s.amongListed target

variable {a b : Shelf} {target : String} {current : Path} {found : Found}

theorem find_eq_seek (s : Shelf) (target : String) (current : Path) :
    s.find target current = s.seek target (aim s.settings.root target current) := by
  unfold find aim
  dsimp only
  split
  · rfl
  · split
    · split <;> rfl
    · split
      · split <;> rfl
      · rfl

/-! ## What is found -/

theorem isFile_of_fileAt {p q : Path} (h : a.fileAt p = .ok (some q)) :
    q = p ∧ a.disk.isFile q = .ok true := by
  unfold fileAt at h
  rcases hfile : a.disk.isFile p with t | _ | _
  · rw [hfile] at h
    cases h
  · rw [hfile] at h
    cases h
  · rw [hfile] at h
    cases h
    exact ⟨rfl, hfile⟩

/-- The selected files give the first of them that answers the name, and warn where others do. -/
theorem of_amongListed (h : a.amongListed target = .ok found) :
    ∃ files, a.list = .ok files ∧ found.shelf = { a with listed := some files } ∧
      found.path = (files.filter (answers target)).head?.map Path.ofLocation ∧
      ∀ w ∈ found.warning, ∃ ls, w = found.shelf.ambiguous target ls := by
  unfold amongListed at h
  cases hlist : a.list with
  | error e =>
    rw [hlist] at h
    cases h
  | ok files =>
    rw [hlist] at h
    refine ⟨files, rfl, ?_⟩
    rcases hanswers : files.filter (answers target) with _ | ⟨l, _ | ⟨m, more⟩⟩
    · simp only [hanswers] at h
      cases h
      exact ⟨rfl, rfl, fun w hw => nomatch hw⟩
    · simp only [hanswers] at h
      cases h
      exact ⟨rfl, rfl, fun w hw => nomatch hw⟩
    · simp only [hanswers] at h
      cases h
      exact ⟨rfl, rfl, fun w hw => ⟨l :: m :: more, (Option.some.inj hw).symm⟩⟩

/-- A search gives the file at the path that it looks at, or no file where it looks no further, or
what the selected files give. -/
theorem find_cases (h : a.find target current = .ok found) :
    (∃ x, found = plain a x ∧ ∀ p ∈ x,
      p ∈ (aim a.settings.root target current).path? ∧ a.disk.isFile p = .ok true) ∨
      a.amongListed target = .ok found := by
  rw [find_eq_seek] at h
  have hat : ∀ {p : Path} {x : Option Path}, a.fileAt p = .ok x → ∀ q ∈ x,
      q ∈ some p ∧ a.disk.isFile q = .ok true := by
    rintro p x hx q rfl
    obtain ⟨rfl, hfile⟩ := isFile_of_fileAt hx
    exact ⟨rfl, hfile⟩
  cases haim : aim a.settings.root target current with
  | broken =>
    rw [haim] at h
    cases h
  | alone p =>
    rw [haim] at h
    obtain ⟨x, hx, rfl⟩ := map_ok h
    exact Or.inl ⟨x, rfl, hat hx⟩
  | first p =>
    rw [haim] at h
    obtain ⟨x, hx, h⟩ := bind_ok h
    cases x with
    | none => exact Or.inr h
    | some q =>
      cases h
      exact Or.inl ⟨some q, rfl, hat hx⟩
  | selected =>
    rw [haim] at h
    exact Or.inr h

/-! ## Searches from two shelves -/

/-- Two shelves with one root find the same, as far as it is seen, if they do at the path that is
looked at and among the selected files. -/
theorem find_map_congr {α : Type} {f g : Found → α} (hroot : b.settings.root = a.settings.root)
    (hfile : ∀ p ∈ (aim a.settings.root target current).path?, b.fileAt p = a.fileAt p)
    (hplain : ∀ x, g (plain b x) = f (plain a x))
    (hlisted : (b.amongListed target).map g = (a.amongListed target).map f) :
    (b.find target current).map g = (a.find target current).map f := by
  rw [find_eq_seek, find_eq_seek, hroot]
  cases haim : aim a.settings.root target current with
  | broken => rfl
  | alone p =>
    unfold seek
    dsimp only
    rw [hfile p (haim ▸ rfl)]
    cases a.fileAt p with
    | error e => rfl
    | ok x => exact congrArg Except.ok (hplain x)
  | first p =>
    unfold seek
    dsimp only
    rw [hfile p (haim ▸ rfl)]
    cases a.fileAt p with
    | error e => rfl
    | ok x =>
      cases x with
      | none => exact hlisted
      | some q => exact congrArg Except.ok (hplain (some q))
  | selected => exact hlisted

/-- A search follows a change of the shelf that what it rests on follows. -/
theorem find_follows {f : Found → Found} (hroot : b.settings.root = a.settings.root)
    (hfile : ∀ p ∈ (aim a.settings.root target current).path?, b.fileAt p = a.fileAt p)
    (hplain : ∀ x, plain b x = f (plain a x))
    (hlisted : b.amongListed target = (a.amongListed target).map f) :
    b.find target current = (a.find target current).map f := by
  have hid : ∀ x : Except LookupError Found, x.map id = x := fun x => congrFun Except.map_id x
  rw [← hid (b.find target current)]
  exact find_map_congr hroot hfile hplain ((hid _).trans hlisted)

end Shelf

end Sourcebook
