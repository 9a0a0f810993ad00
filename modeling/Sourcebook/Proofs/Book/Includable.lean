-- What an include can mean. A name alone means one of the selected files; a path with slashes means
-- what stands there below the root, selected or not, and only then a selected file. With a dot in
-- front, a name alone is a path too.
import Mathlib
import Sourcebook.Book.Include
import Sourcebook.Proofs.Book.Declared
import Sourcebook.Proofs.Book.Order

namespace Sourcebook

/-! ## Selected files below the root -/

/-- No part of a pattern is a parent step. -/
def StaysBelow (pattern : String) : Prop := ".." ∉ (Path.ofString pattern).parts

instance (pattern : String) : Decidable (StaysBelow pattern) := inferInstanceAs (Decidable (_ ∉ _))

namespace Discovery

variable {d : Disk} {s : Settings} {files : List Location}

/-- Where no pattern has a parent step, a selected file lies below the root, and its path from there
is not taken out. -/
theorem below_root (hd : d.Named) (hbelow : ∀ pattern ∈ s.selected, StaysBelow pattern)
    (h : Discovery.files d s = .ok files) {l : Location} (hl : l ∈ files) :
    ∃ names, l = s.root ++ names ∧ isExcluded ("/".intercalate names) s.excluded = false := by
  obtain ⟨pattern, hpattern, parts, hparts, spelled, ⟨⟨all, hall, hin⟩, -, hkept⟩, rfl⟩ :=
    selects_of_mem h hl
  refine ⟨spelled, Location.walk_down fun hup => ?_, hkept⟩
  rcases Glob.mem_of_run hall hin hup with ⟨x, hx, hn⟩ | hn
  · exact (hd x hx _ hn).1 rfl
  · exact hbelow pattern hpattern (Glob.named_of_parse hparts hn)

end Discovery

/-! ## Searches -/

namespace Shelf

variable {s : Shelf} {target : String} {current : Path}

/-- What a search among the selected files gives: the first one that answers the name, or no file;
it fails only where the selected files cannot be found. -/
def FirstSelected (s : Shelf) (target : String) (result : Except LookupError Found) : Prop :=
  match Discovery.files s.disk s.settings with
  | .error e => result = .error (.glob e)
  | .ok files => ∃ found, result = .ok found ∧
      found.path = ((files.filter (answers target)).head?).map Path.ofLocation ∧
      found.shelf = { s with listed := some files }

/-- The list of a shelf, where it has one, is that of the selected files. -/
def Honest (s : Shelf) : Prop :=
  ∀ files, s.listed = some files → Discovery.files s.disk s.settings = .ok files

theorem list_eq (hs : s.Honest) : s.list = Discovery.files s.disk s.settings := by
  unfold list
  cases hlisted : s.listed with
  | none => rfl
  | some files => exact (hs files hlisted).symm

theorem amongListed_first (hs : s.Honest) (target : String) :
    s.FirstSelected target (s.amongListed target) := by
  unfold FirstSelected amongListed
  rw [list_eq hs]
  cases Discovery.files s.disk s.settings with
  | error e => rfl
  | ok files =>
    simp only
    rcases hanswers : files.filter (answers target) with _ | ⟨l, _ | ⟨m, more⟩⟩
    · exact ⟨_, rfl, rfl, rfl⟩
    · exact ⟨_, rfl, rfl, rfl⟩
    · exact ⟨_, rfl, rfl, rfl⟩

/-- What a look at a path gives: the file there, or else the rest of the search. A path with a null
character, or one that the disk does not look up, ends the search. -/
def Looked (s : Shelf) (seen q : Path) (result : Except LookupError Found) (rest : Prop) : Prop :=
  (seen.hasNull = true → result = .error .nullInPath) ∧
  (seen.hasNull = false →
    match s.disk.isFile q with
    | .error t => result = .error (.trouble t)
    | .ok true => result = .ok ⟨some q, none, s⟩
    | .ok false => rest)

theorem Looked.imp {seen q : Path} {result : Except LookupError Found} {rest rest' : Prop}
    (h : s.Looked seen q result rest) (himp : rest → rest') : s.Looked seen q result rest' := by
  refine ⟨h.1, fun hnull => ?_⟩
  have hlook := h.2 hnull
  rcases hfile : s.disk.isFile q with t | _ | _
  · rw [hfile] at hlook
    exact hlook
  · rw [hfile] at hlook
    exact himp hlook
  · rw [hfile] at hlook
    exact hlook

theorem Looked.rest {seen q : Path} {result : Except LookupError Found} {rest : Prop}
    (h : s.Looked seen q result rest) (hnull : seen.hasNull = false)
    (hfile : s.disk.isFile q = .ok false) : rest := by
  have hlook := h.2 hnull
  rw [hfile] at hlook
  exact hlook

theorem Looked.trouble {seen q : Path} {result : Except LookupError Found} {rest : Prop}
    (h : s.Looked seen q result rest) (hnull : seen.hasNull = false) {t : Trouble}
    (hfile : s.disk.isFile q = .error t) : result = .error (.trouble t) := by
  have hlook := h.2 hnull
  rw [hfile] at hlook
  exact hlook

theorem Looked.found {seen q path : Path} {result : Except LookupError Found} {rest : Prop}
    {found : Found} (h : s.Looked seen q result rest) (hfound : result = .ok found)
    (hpath : found.path = some path) :
    (seen.hasNull = false ∧ s.disk.isFile q = .ok true ∧ path = q) ∨ rest := by
  cases hnull : seen.hasNull with
  | true =>
    rw [hfound] at h
    cases h.1 hnull
  | false =>
    have hlook := h.2 hnull
    rcases hfile : s.disk.isFile q with t | _ | _
    · rw [hfile, hfound] at hlook
      cases hlook
    · rw [hfile] at hlook
      exact Or.inr hlook
    · rw [hfile, hfound] at hlook
      cases hlook
      exact Or.inl ⟨rfl, rfl, (Option.some.inj hpath).symm⟩

theorem Looked.stands {seen q : Path} {result : Except LookupError Found} {rest : Prop}
    (h : s.Looked seen q result rest) (hnull : seen.hasNull = false)
    (hfile : s.disk.isFile q = .ok true) : result = .ok ⟨some q, none, s⟩ := by
  have hlook := h.2 hnull
  rw [hfile] at hlook
  exact hlook

/-- A name that starts with a dot is looked at from the file it stands in, and nowhere else. -/
theorem find_near (habsolute : (Path.ofString target).isAbsolute = false)
    (hdot : target.toList.head? = some '.') :
    let near := current.parent.join (Path.ofString target)
    s.Looked near (Path.ofLocation (near.normal [])) (s.find target current)
      (s.find target current = .ok ⟨none, none, s⟩) := by
  intro near
  refine ⟨fun hnull => ?_, fun hnull => ?_⟩
  · unfold find
    simp only [habsolute, Bool.false_eq_true, if_false, beq_iff_eq, hdot, if_true,
      show (current.parent.join (Path.ofString target)).hasNull = true from hnull]
  · unfold find fileAt
    simp only [habsolute, Bool.false_eq_true, if_false, beq_iff_eq, hdot, if_true,
      show (current.parent.join (Path.ofString target)).hasNull = false from hnull]
    rw [show current.parent.join (Path.ofString target) = near from rfl]
    rcases hfile : s.disk.isFile (Path.ofLocation (near.normal [])) with t | _ | _
    · rfl
    · rfl
    · rfl

/-- A name with slashes is looked at from the root, and then sought in the list. -/
theorem find_looked (habsolute : (Path.ofString target).isAbsolute = false)
    (hdot : target.toList.head? ≠ some '.') (hslash : '/' ∈ target.toList) :
    s.Looked (Path.ofString target)
      (Path.ofLocation ((Path.ofString target).normal s.settings.root)) (s.find target current)
      (s.find target current = s.amongListed target) := by
  have hsome : target.toList.contains '/' = true := by simpa using hslash
  refine ⟨fun hnull => ?_, fun hnull => ?_⟩
  · unfold find
    simp only [habsolute, Bool.false_eq_true, if_false, beq_iff_eq, hdot, hsome, if_true, hnull]
  · unfold find fileAt
    simp only [habsolute, Bool.false_eq_true, if_false, beq_iff_eq, hdot, hsome, if_true, hnull]
    rcases hfile : s.disk.isFile (Path.ofLocation ((Path.ofString target).normal s.settings.root))
      with t | _ | _
    · rfl
    · rfl
    · rfl

theorem find_path (hs : s.Honest) (habsolute : (Path.ofString target).isAbsolute = false)
    (hdot : target.toList.head? ≠ some '.') (hslash : '/' ∈ target.toList) :
    s.Looked (Path.ofString target)
      (Path.ofLocation ((Path.ofString target).normal s.settings.root)) (s.find target current)
      (s.FirstSelected target (s.find target current)) := by
  refine (find_looked habsolute hdot hslash).imp fun hfind => ?_
  rw [hfind]
  exact amongListed_first hs target

/-- A name alone is sought in the list. -/
theorem find_eq_amongListed (habsolute : (Path.ofString target).isAbsolute = false)
    (hdot : target.toList.head? ≠ some '.') (hname : '/' ∉ target.toList) :
    s.find target current = s.amongListed target := by
  have hplain : target.toList.contains '/' = false := by simpa using hname
  unfold find
  simp only [habsolute, Bool.false_eq_true, if_false, beq_iff_eq, hdot, hplain]

theorem find_alone (hs : s.Honest) (habsolute : (Path.ofString target).isAbsolute = false)
    (hdot : target.toList.head? ≠ some '.') (hname : '/' ∉ target.toList) :
    s.FirstSelected target (s.find target current) := by
  rw [find_eq_amongListed habsolute hdot hname]
  exact amongListed_first hs target

/-! ## Files that are not selected -/

theorem FirstSelected.mem {result : Except LookupError Found} {files : List Location}
    {found : Found} {l : Location} (h : s.FirstSelected target result)
    (hfiles : Discovery.files s.disk s.settings = .ok files) (hfound : result = .ok found)
    (hpath : found.path = some (Path.ofLocation l)) : l ∈ files := by
  unfold FirstSelected at h
  rw [hfiles] at h
  obtain ⟨first, hfirst, hhead, -⟩ := h
  rw [hfound] at hfirst
  cases hfirst
  obtain ⟨k, hk, he⟩ := Option.map_eq_some_iff.mp (hhead.symm.trans hpath)
  cases he
  exact List.mem_of_mem_filter (List.mem_of_mem_head? hk)

/-- A relative name is the path to a place: with a dot in front from the file it stands in, and else,
if it has a slash, from the root. -/
def IsPathTo (s : Shelf) (target : String) (current : Path) (l : Location) : Prop :=
  let p := Path.ofString target
  let near := current.parent.join p
  (target.toList.head? = some '.' ∧ near.hasNull = false ∧ l = near.normal []) ∨
    (target.toList.head? ≠ some '.' ∧ '/' ∈ target.toList ∧ p.hasNull = false ∧
      l = p.normal s.settings.root)

/-- A search ends at a file that is not selected exactly where its name is the path to that file. -/
theorem find_unselected (hs : s.Honest) (habsolute : (Path.ofString target).isAbsolute = false)
    {files : List Location} (hfiles : Discovery.files s.disk s.settings = .ok files) {l : Location}
    (hl : l ∉ files) :
    (∃ found, s.find target current = .ok found ∧ found.path = some (Path.ofLocation l)) ↔
      s.IsPathTo target current l ∧ s.disk.isFile (Path.ofLocation l) = .ok true := by
  constructor
  · rintro ⟨found, hfound, hpath⟩
    have hnone : ¬ s.FirstSelected target (s.find target current) :=
      fun h => hl (h.mem hfiles hfound hpath)
    by_cases hdot : target.toList.head? = some '.'
    · rcases (find_near habsolute hdot).found hfound hpath with ⟨hnull, hfile, he⟩ | hmissed
      · cases he
        exact ⟨Or.inl ⟨hdot, hnull, rfl⟩, hfile⟩
      · rw [hmissed] at hfound
        cases hfound
        cases hpath
    · by_cases hslash : '/' ∈ target.toList
      · rcases (find_path hs habsolute hdot hslash).found hfound hpath with ⟨hnull, hfile, he⟩ | hfirst
        · cases he
          exact ⟨Or.inr ⟨hdot, hslash, hnull, rfl⟩, hfile⟩
        · exact absurd hfirst hnone
      · exact absurd (find_alone hs habsolute hdot hslash) hnone
  · rintro ⟨⟨hdot, hnull, rfl⟩ | ⟨hdot, hslash, hnull, rfl⟩, hfile⟩
    · exact ⟨_, (find_near habsolute hdot).stands hnull hfile, rfl⟩
    · exact ⟨_, (find_path hs habsolute hdot hslash).stands hnull hfile, rfl⟩

/-- A relative name. Alone it means the first selected file of that name, if any. With slashes it
means the file at that path from the root, or else the first selected file with that end. With a
dot in front it means the file at that path from the file it stands in, also where it is the name of
a file alone. So a file that is not selected is found exactly where the name is the path to it. A
selected file is never one that is taken out, and is below the root when no pattern has a parent
step. -/
theorem only_a_path_means_a_file_that_is_not_selected (hd : s.disk.Named) (hs : s.Honest)
    (habsolute : (Path.ofString target).isAbsolute = false) :
    let p := Path.ofString target
    let near := current.parent.join p
    let result := s.find target current
    (target.toList.head? ≠ some '.' → '/' ∉ target.toList → s.FirstSelected target result) ∧
    (target.toList.head? ≠ some '.' → '/' ∈ target.toList →
      s.Looked p (Path.ofLocation (p.normal s.settings.root)) result
        (s.FirstSelected target result) ∧
      (".." ∉ p.parts → s.settings.root <+: p.normal s.settings.root)) ∧
    (target.toList.head? = some '.' →
      s.Looked near (Path.ofLocation (near.normal [])) result (result = .ok ⟨none, none, s⟩)) ∧
    ∀ files, Discovery.files s.disk s.settings = .ok files →
      (∀ l, l ∉ files →
        ((∃ found, result = .ok found ∧ found.path = some (Path.ofLocation l)) ↔
          s.IsPathTo target current l ∧ s.disk.isFile (Path.ofLocation l) = .ok true)) ∧
      ∀ l ∈ files,
        (∃ pattern ∈ s.settings.selected, ∃ parts, Glob.parse pattern = .ok parts ∧
          ∃ spelled, Discovery.Selects s.disk s.settings parts spelled ∧
            l = Location.walk s.settings.root spelled) ∧
        ((∀ pattern ∈ s.settings.selected, StaysBelow pattern) →
          ∃ names, l = s.settings.root ++ names ∧
            isExcluded ("/".intercalate names) s.settings.excluded = false) := by
  intro p near result
  refine ⟨fun hdot hname => find_alone hs habsolute hdot hname, fun hdot hslash =>
    ⟨find_path hs habsolute hdot hslash, fun hup => ?_⟩, fun hdot => find_near habsolute hdot,
    fun files hfiles => ⟨fun l hl => find_unselected hs habsolute hfiles hl, fun l hl =>
      ⟨Discovery.selects_of_mem hfiles hl, fun hbelow => Discovery.below_root hd hbelow hfiles hl⟩⟩⟩
  have hjoin : p.normal s.settings.root = s.settings.root ++ p.parts := by
    unfold Path.normal
    rw [habsolute]
    exact Location.walk_down hup
  rw [hjoin]
  exact List.prefix_append _ _

/-- A project with two files outside of the patterns, one of them in a directory that is taken
out. -/
def hiddenShelf : Shelf where
  disk := ⟨[(["p"], .directory), (["p", "test"], .directory), (["p", "test", "a.ts"], .file []),
    (["p", "test", ".hidden.sol"], .file []), (["p", "node_modules"], .directory),
    (["p", "node_modules", "lib"], .directory),
    (["p", "node_modules", "lib", "Hidden.sol"], .file [])]⟩
  settings := .ofRoot ["p"]
  listed := none

def hiddenCurrent : Path := ⟨.single, ["p", "test", "a.ts"]⟩

theorem hiddenShelf_files :
    Discovery.files hiddenShelf.disk hiddenShelf.settings = .ok [["p", "test", "a.ts"]] :=
  Discovery.files_of_rising [[["p", "test", "a.ts"]], []] (by decide) (by decide)

theorem a_hidden_file_is_not_found_by_its_name :
    let s := hiddenShelf
    s.disk.Named ∧ s.Honest ∧ (Path.ofString "Hidden.sol").isAbsolute = false ∧
    ∃ found, s.find "Hidden.sol" hiddenCurrent = .ok found ∧ found.path = none := by
  intro s
  have hd : s.disk.Named := by decide
  have hs : s.Honest := fun files h => nomatch h
  have habsolute : (Path.ofString "Hidden.sol").isAbsolute = false := by decide
  obtain ⟨hname, -⟩ :=
    @only_a_path_means_a_file_that_is_not_selected _ _ hiddenCurrent hd hs habsolute
  have hfirst := hname (by decide) (by decide)
  unfold FirstSelected at hfirst
  rw [hiddenShelf_files] at hfirst
  obtain ⟨found, hfound, hpath, -⟩ := hfirst
  exact ⟨hd, hs, habsolute, found, hfound, hpath⟩

/-- By its path from the root a file is found, though it is not among the selected files, and so is
one whose name starts with a dot, by that name. -/
theorem a_path_can_mean_a_file_that_is_not_selected :
    (∃ found, hiddenShelf.find "node_modules/lib/Hidden.sol" hiddenCurrent = .ok found ∧
      found.path = some ⟨.single, ["p", "node_modules", "lib", "Hidden.sol"]⟩) ∧
    (∃ found, hiddenShelf.find ".hidden.sol" hiddenCurrent = .ok found ∧
      found.path = some ⟨.single, ["p", "test", ".hidden.sol"]⟩) ∧
    ∀ files, Discovery.files hiddenShelf.disk hiddenShelf.settings = .ok files →
      ["p", "node_modules", "lib", "Hidden.sol"] ∉ files ∧ ["p", "test", ".hidden.sol"] ∉ files := by
  refine ⟨⟨_, rfl, rfl⟩, ⟨_, rfl, rfl⟩, fun files hfiles => ?_⟩
  rw [hiddenShelf_files] at hfiles
  cases hfiles
  decide

end Shelf

end Sourcebook
