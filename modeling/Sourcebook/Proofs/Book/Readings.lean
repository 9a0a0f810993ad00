-- What files tell depends on the project, the patterns and the disk, and on no other setting: not
-- on where pages are written, and not on what a conflict leads to.
import Mathlib
import Sourcebook.Book.Basic
import Sourcebook.Proofs.Book.Shelves

namespace Sourcebook

/-- The settings that decide what is read. -/
structure Settings.ReadsAs (s t : Settings) : Prop where
  root : s.root = t.root
  selected : s.selected = t.selected
  excluded : s.excluded = t.excluded

theorem Discovery.files_congr {s t : Settings} (h : s.ReadsAs t) (d : Disk) :
    files d s = files d t := by
  have hwanted : isWanted d s = isWanted d t := by
    funext spelled
    unfold isWanted
    rw [h.root, h.excluded]
  unfold files ofPattern
  rw [hwanted, h.root, h.selected]

/-! ## Searches -/

namespace Shelf

variable {a : Shelf} {t : Settings}

/-- The same shelf under other settings. -/
def under (a : Shelf) (t : Settings) : Shelf := { a with settings := t }

def Found.under (f : Found) (t : Settings) : Found := { f with shelf := f.shelf.under t }

theorem list_under (h : a.settings.ReadsAs t) : (a.under t).list = a.list := by
  unfold list under
  rw [Discovery.files_congr h]

theorem ambiguous_under (h : a.settings.ReadsAs t) (target : String) (found : List Location) :
    (a.under t).ambiguous target found = a.ambiguous target found := by
  have hdisplay : (a.under t).display = a.display := by
    funext l
    unfold display under
    rw [h.root]
  unfold ambiguous
  rw [hdisplay]

theorem amongListed_under (h : a.settings.ReadsAs t) (target : String) :
    (a.under t).amongListed target = (a.amongListed target).map (Found.under · t) := by
  unfold amongListed
  rw [list_under h]
  cases a.list with
  | error e => rfl
  | ok files =>
    have hambiguous := ambiguous_under (a := { a with listed := some files }) h target
    unfold under at hambiguous
    dsimp only [under]
    split
    · rfl
    · rfl
    · rw [hambiguous]
      rfl

/-- A search finds the same under settings that read the same. -/
theorem find_under (h : a.settings.ReadsAs t) (target : String) (current : Path) :
    (a.under t).find target current = (a.find target current).map (Found.under · t) :=
  find_follows h.root.symm (fun _ _ => rfl) (fun _ => rfl) (amongListed_under h target)

end Shelf

/-! ## Lines -/

namespace FileState

variable {s : FileState} {t : Settings}

/-- The same state under other settings. -/
def under (s : FileState) (t : Settings) : FileState := s.onShelf (s.shelf.under t)

def Step.under (x : Step) (t : Settings) : Step := { x with state := x.state.under t }

theorem embedIn_under (h : s.shelf.settings.ReadsAs t) (n : Nat) (c target : String)
    (raw : Option String) : (s.under t).embedIn n c target raw = (s.embedIn n c target raw).under t :=
  embedIn_reshelf (g := (·.under t)) (fun _ => rfl) (Shelf.find_under h _ _) (fun _ _ _ _ => rfl)
    n c raw

theorem readLine_under (h : s.shelf.settings.ReadsAs t) (n : Nat) (line : List Char) :
    (s.under t).readLine n line = (s.readLine n line).under t :=
  readLine_reshelf (g := (·.under t)) fun _ _ _ =>
    embed_reshelf fun c _ => embedIn_under (s := s.closed) h n c _ _

theorem readLines_under {lines : List (List Char)} (h : s.shelf.settings.ReadsAs t) (n : Nat) :
    (s.under t).readLines n lines = s.readLines n lines :=
  readLines_reshelf (g := (·.under t)) (P := fun s _ _ => s.shelf.settings.ReadsAs t)
    (fun h => readLine_under h _ _)
    (fun {s n line _} h _ => (s.readLine_state n line).2.2.settings ▸ h) h

end FileState

/-- A text tells the same under settings that read the same. -/
theorem Event.ofText_congr {s t : Settings} (h : s.ReadsAs t) (disk : Disk)
    (listed : Option (List Location)) (source : Location) (text : List Char) :
    Event.ofText ⟨disk, s, listed⟩ source text = Event.ofText ⟨disk, t, listed⟩ source text := by
  have hreads : (FileState.ofFile ⟨disk, s, listed⟩ source).shelf.settings.ReadsAs t := h
  have hunder : (FileState.ofFile ⟨disk, s, listed⟩ source).under t =
      .ofFile ⟨disk, t, listed⟩ source := FileState.onShelf_ofFile _ _ source
  unfold Event.ofText
  rw [← hunder, FileState.readLines_under hreads]

/-! ## Books -/

namespace Desk

variable {s t : Settings}

theorem applyAll_congr (h : s.root = t.root) (hs : s.strict = t.strict) (d : Desk)
    (events : List Event) : d.applyAll s events = d.applyAll t events := by
  have happly : apply s = apply t := by
    funext d e
    cases e with
    | declare source line id title =>
      unfold apply Book.apply Book.declare
      rw [h, hs]
    | _ => rfl
  induction events generalizing d with
  | nil => rfl
  | cons e rest ih =>
    unfold applyAll
    rw [happly]
    simp only [ih]

theorem readSource_congr (h : s.ReadsAs t) (hs : s.strict = t.strict) (disk : Disk) (d : Desk)
    (p : Path) : d.readSource disk s p = d.readSource disk t p := by
  unfold readSource readTextAt readText
  simp only [Event.ofText_congr h, applyAll_congr h.root hs]

theorem readSources_congr (h : s.ReadsAs t) (hs : s.strict = t.strict) (disk : Disk) (d : Desk)
    (ls : List Location) : d.readSources disk s ls = d.readSources disk t ls := by
  induction ls generalizing d with
  | nil => rfl
  | cons l rest ih =>
    unfold readSources
    rw [readSource_congr h hs]
    simp only [ih]

end Desk

theorem Book.ofProject_eq (disk : Disk) (s : Settings) :
    ofProject disk s = (Discovery.files disk s).map fun files =>
      (files, Desk.readSources disk s ⟨.empty, some files⟩ files) := by
  unfold ofProject
  cases Discovery.files disk s <;> rfl

/-- The book of a project is the same under settings that read the same and are as strict. -/
theorem Book.ofProject_congr {s t : Settings} (h : s.ReadsAs t) (hs : s.strict = t.strict)
    (disk : Disk) : ofProject disk s = ofProject disk t := by
  simp only [ofProject_eq, Discovery.files_congr h, Desk.readSources_congr h hs]

end Sourcebook
