-- The changes of a run: it clears one directory, writes the pages and then the table of
-- contents. What stands at a place afterwards is what the last change that meets it left.
import Mathlib
import Sourcebook.Publish
import Sourcebook.Proofs.Disk.Making

namespace Sourcebook

namespace Publish

/-- What a run does to files. -/
inductive Change where
  | cleared (dir : Location)
  | wrote (l : Location) (text : String)
  deriving Repr, DecidableEq

namespace Change

/-- The file at a place can be another one after the change. -/
def meets (l : Location) : Change → Bool
  | .cleared dir => dir.isPrefixOf l
  | .wrote k _ => k == l

@[simp] theorem meets_cleared {l dir : Location} : (cleared dir).meets l ↔ dir <+: l :=
  List.isPrefixOf_iff_prefix

@[simp] theorem meets_wrote {l k : Location} {text : String} : (wrote k text).meets l ↔ k = l :=
  beq_iff_eq

/-- The bytes that the change leaves where it meets a file. -/
def leaves : Change → Option (List UInt8)
  | .cleared _ => none
  | .wrote _ text => some (Text.encode text)

/-- The file at a place after the change. -/
def after (l : Location) (before : Option (List UInt8)) (c : Change) : Option (List UInt8) :=
  if c.meets l then c.leaves else before

end Change

/-! ## The changes of each part of a run -/

/-- Nothing is cleared where no directory stands. -/
def clearing (d : Disk) (s : Settings) : List Change :=
  match d.find? (Path.ofLocation (s.outDir.normal [])) with
  | .ok (some .directory) => [.cleared (s.outDir.normal [])]
  | _ => []

def writing (d : Disk) (p : Path) (text : String) : List Change :=
  match (writeText d p text).2 with
  | .ok () => [.wrote (p.normal []) text]
  | .error _ => []

/-- Texts up to the first that cannot be written. -/
def writings (d : Disk) : List (Path × String) → List Change
  | [] => []
  | (p, text) :: rest =>
    writing d p text ++
      match writeText d p text with
      | (_, .error _) => []
      | (d, .ok ()) => writings d rest

/-- The changes of a run that has an arranged tree. The disk is the one that was prepared. -/
def writingTree (d : Disk) (s : Settings) (tree : Tree) (pages : List ReferencePage)
    (chapters : List Chapter) : List Change :=
  let texts := pageTexts s (finished tree chapters)
  writings d texts ++
    match writeTexts d texts with
    | (d, _, none) => writing d s.summaryFile (Outline.page s tree (pagesApart s pages))
    | (_, _, some _) => []

/-- The changes of a run, in order. A run without chapters and one that fails before the
directory of the pages is ready have none. -/
def changes (d : Disk) (s : Settings) : List Change :=
  match Book.ofProject d s with
  | .ok (_, desk, none) =>
    let chapters := desk.book.ordered
    if chapters.isEmpty then []
    else
      match (treeOf d s chapters).1, prepare d s with
      | .ok (tree, pages), .ok ready => clearing d s ++ writingTree ready s tree pages chapters
      | _, _ => []
  | _ => []

/-- The last change that meets a place. -/
def lastMeeting (l : Location) (cs : List Change) : Option Change := (cs.filter (·.meets l)).getLast?

variable {d d' : Disk} {s : Settings}

theorem foldl_after (l : Location) (cs : List Change) (before : Option (List UInt8)) :
    cs.foldl (Change.after l) before =
      match lastMeeting l cs with
      | none => before
      | some c => c.leaves := by
  induction cs using List.reverseRecOn with
  | nil => rfl
  | append_singleton cs c ih =>
    unfold lastMeeting at ih ⊢
    rw [List.foldl_append, List.foldl_cons, List.foldl_nil, ih, List.filter_append]
    unfold Change.after
    by_cases hc : c.meets l
    · simp [hc]
    · simp [hc]

/-! ## The disk after each part -/

/-- How the directory of the pages is cleared: it is not touched, or it is gone and made again, or
it was not there and is made. -/
theorem clear_cases (d : Disk) (s : Settings) :
    (∃ e, clear d s = (d, some e)) ∨
      ∃ a, (d.find? (Path.ofLocation (s.outDir.normal [])) = .ok (some .directory) ∧
            clearing d s = [.cleared (s.outDir.normal [])] ∧ a = d.removeTree (s.outDir.normal []) ∨
          d.find? (Path.ofLocation (s.outDir.normal [])) = .ok none ∧ clearing d s = [] ∧ a = d) ∧
        s.outDir.hasNull = false ∧ s.outDir.normal [] ≠ [] ∧ ¬ s.outDir.normal [] <+: s.root ∧
        ∃ d' stop, a.layDirectories (Path.ofLocation (s.outDir.normal [])) = (d', stop) ∧
          clear d s = (d', stop.map (unprepared (s.outDir.normal []))) := by
  unfold clear clearing
  split
  · exact Or.inl ⟨_, rfl⟩
  · next hnull =>
    simp only
    split
    · exact Or.inl ⟨_, rfl⟩
    · next hroot =>
      have hne : s.outDir.normal [] ≠ [] := by
        intro hnil
        rw [hnil] at hroot
        exact hroot rfl
      rw [List.isPrefixOf_iff_prefix] at hroot
      rw [Bool.not_eq_true] at hnull
      split
      · exact Or.inl ⟨_, rfl⟩
      · exact Or.inl ⟨_, rfl⟩
      · next hfind =>
        rw [hfind]
        exact Or.inr ⟨_, Or.inl ⟨rfl, rfl, rfl⟩, hnull, hne, hroot, _, _, rfl, rfl⟩
      · next hfind =>
        rw [hfind]
        exact Or.inr ⟨_, Or.inr ⟨rfl, rfl, rfl⟩, hnull, hne, hroot, _, _, rfl, rfl⟩

/-- A directory that was cleared can be made again. -/
theorem cleared_returns {dir : Location} (hne : dir ≠ [])
    (h : d.find? (Path.ofLocation dir) = .ok (some .directory)) :
    ∃ d', (d.removeTree dir).layDirectories (Path.ofLocation dir) = (d', none) := by
  have hnull : (Path.ofLocation dir).hasNull = false := by
    rw [Bool.eq_false_iff]
    intro hnull
    unfold Disk.find? at h
    rw [if_pos hnull] at h
    cases h
  have hthere : d.isDir (Path.ofLocation dir) = .ok true := by
    unfold Disk.isDir
    rw [h]
    rfl
  obtain ⟨hs, hdirs⟩ := Disk.isDir_true hthere
  refine Disk.layDirectories_returns hnull hs fun k hk => ?_
  rw [Disk.fileAt_removeTree hne]
  split
  · rfl
  · unfold Disk.fileAt
    rw [hdirs k hk]

theorem fileAt_clear (d : Disk) (s : Settings) (l : Location) :
    (clear d s).1.fileAt l =
      match (clear d s).2 with
      | none => (clearing d s).foldl (Change.after l) (d.fileAt l)
      | some _ => d.fileAt l := by
  rcases clear_cases d s with ⟨e, he⟩ | ⟨a, ha, -, hne, -, d', stop, hlay, hclear⟩
  · rw [he]
  · have hfile := Disk.fileAt_layDirectories a (Path.ofLocation (s.outDir.normal [])) l
    rw [hlay] at hfile
    rw [hclear, hfile]
    rcases ha with ⟨hfind, hclearing, rfl⟩ | ⟨-, hclearing, rfl⟩
    · -- What was cleared can be made again, so this does not stop.
      obtain ⟨d'', hreturns⟩ := cleared_returns hne hfind
      rw [hlay] at hreturns
      cases hreturns
      rw [hclearing, Disk.fileAt_removeTree hne]
      rfl
    · rw [hclearing]
      cases stop <;> rfl

theorem fileAt_prepare (h : prepare d s = .ok d') (l : Location) :
    d'.fileAt l = (clearing d s).foldl (Change.after l) (d.fileAt l) := by
  have hfile := fileAt_clear d s l
  rwa [Disk.outcome_eq_ok.mp h] at hfile

/-- A failure of writing. -/
def RunError.OfWriting (e : RunError) : Prop := e = .nullInPath ∨ ∃ t, e = .trouble t

/-- How a text is written: it is not begun, or it stops with some or all of the directories made, or
it stands in its file. -/
theorem writeText_cases (d : Disk) (p : Path) (text : String) :
    (p.parent.hasNull = true ∧ writeText d p text = (d, .error .nullInPath)) ∨
      (∃ e, RunError.OfWriting e ∧
        writeText d p text = ((d.layDirectories p.parent).1, .error e)) ∨
      p.hasNull = false ∧ ∃ d1 d2, d.layDirectories p.parent = (d1, none) ∧
        d1.write p (Text.encode text) = .ok d2 ∧ writeText d p text = (d2, .ok ()) := by
  unfold writeText
  split
  · next hnull => exact Or.inl ⟨hnull, rfl⟩
  · refine Or.inr ?_
    rcases hlay : d.layDirectories p.parent with ⟨d1, _ | t⟩
    · dsimp only
      split
      · exact Or.inl ⟨_, Or.inl rfl, rfl⟩
      · next hnull =>
        cases hw : d1.write p (Text.encode text) with
        | error t => exact Or.inl ⟨_, Or.inr ⟨t, rfl⟩, rfl⟩
        | ok d2 => exact Or.inr ⟨by simpa using hnull, d1, d2, rfl, hw, rfl⟩
    · exact Or.inl ⟨_, Or.inr ⟨t, rfl⟩, rfl⟩

theorem fileAt_writeText (d : Disk) (p : Path) (text : String) (l : Location) :
    (writeText d p text).1.fileAt l = (writing d p text).foldl (Change.after l) (d.fileAt l) := by
  have hfile := Disk.fileAt_layDirectories d p.parent l
  unfold writing
  rcases writeText_cases d p text with ⟨-, h⟩ | ⟨e, -, h⟩ | ⟨-, d1, d2, hlay, hw, h⟩
  · rw [h]
    rfl
  · rw [h]
    exact hfile
  · rw [hlay] at hfile
    rw [h]
    simp only [List.foldl_cons, List.foldl_nil, Change.after, Change.meets, Change.leaves,
      beq_iff_eq]
    rw [Disk.fileAt_write hw, hfile]

theorem fileAt_writeTexts (d : Disk) (texts : List (Path × String)) (l : Location) :
    (writeTexts d texts).1.fileAt l = (writings d texts).foldl (Change.after l) (d.fileAt l) := by
  induction texts generalizing d with
  | nil => rfl
  | cons x rest ih =>
    obtain ⟨p, text⟩ := x
    have hfirst := fileAt_writeText d p text l
    simp only [writeTexts, writings, List.foldl_append]
    rw [← hfirst]
    rcases writeText d p text with ⟨d1, e | _⟩
    · rfl
    · exact ih d1

theorem fileAt_writeAll {tree : Tree} {pages : List ReferencePage} {chapters : List Chapter}
    (hp : prepare d s = .ok d') (l : Location) :
    (writeAll d s tree pages chapters).1.fileAt l =
      (clearing d s ++ writingTree d' s tree pages chapters).foldl (Change.after l) (d.fileAt l) := by
  unfold writeAll writingTree
  rw [Disk.outcome_eq_ok.mp hp, List.foldl_append, ← fileAt_prepare hp]
  simp only
  generalize pageTexts s (finished tree chapters) = texts
  generalize Outline.page s tree (pagesApart s pages) = outline
  rw [List.foldl_append, ← fileAt_writeTexts]
  rcases writeTexts d' texts with ⟨d1, written, _ | e⟩
  · have hlast := fileAt_writeText d1 s.summaryFile outline l
    simp only
    rw [← hlast]
    rcases writeText d1 s.summaryFile outline with ⟨d2, e | _⟩
    · rfl
    · rfl
  · rfl

theorem fileAt_run (d : Disk) (s : Settings) (l : Location) :
    (run d s).disk.fileAt l = (changes d s).foldl (Change.after l) (d.fileAt l) := by
  unfold run changes
  rcases Book.ofProject d s with e | ⟨files, desk, _ | e⟩
  · rfl
  · simp only
    split
    · rfl
    · rcases treeOf d s desk.book.ordered with ⟨t | ⟨tree, pages⟩, notices⟩
      · rfl
      · simp only
        cases hp : prepare d s with
        | error e =>
          have hfile := fileAt_clear d s l
          unfold prepare at hp
          unfold writeAll
          rcases hclear : clear d s with ⟨d', _ | stop⟩
          · rw [hclear] at hp
            cases hp
          · rw [hclear] at hfile
            exact hfile
        | ok ready => exact fileAt_writeAll hp l
  · rfl

/-- What the writing of each text keeps, the writing of all keeps. -/
theorem writeTexts_keeps {P : Disk → Prop} {texts : List (Path × String)}
    (hone : ∀ a, ∀ x ∈ texts, P a → P (writeText a x.1 x.2).1) (h : P d) :
    P (writeTexts d texts).1 := by
  induction texts generalizing d with
  | nil => exact h
  | cons x rest ih =>
    obtain ⟨p, text⟩ := x
    have hfirst := hone d (p, text) List.mem_cons_self h
    simp only [writeTexts]
    rcases hx : writeText d p text with ⟨d1, e | _⟩
    · rw [hx] at hfirst
      exact hfirst
    · rw [hx] at hfirst
      exact ih (fun a y hy => hone a y (List.mem_cons_of_mem _ hy)) hfirst

/-- What holds of the cleared disk, and is kept by every page and by the table of contents, holds
when all is written, also where that stops. -/
theorem writeAll_keeps {P : Disk → Prop} {tree : Tree} {pages : List ReferencePage}
    {chapters : List Chapter} (hclear : P (clear d s).1)
    (hpage : ∀ a, ∀ c ∈ finished tree chapters, P a → P (writeText a (pageOf s c) c.render).1)
    (hsummary : ∀ a text, P a → P (writeText a s.summaryFile text).1) :
    P (writeAll d s tree pages chapters).1 := by
  unfold writeAll
  rcases hready : clear d s with ⟨ready, _ | e⟩
  · rw [hready] at hclear
    have hwritten : P (writeTexts ready (pageTexts s (finished tree chapters))).1 := by
      refine writeTexts_keeps (fun a x hx ha => ?_) hclear
      obtain ⟨c, hc, rfl⟩ := List.mem_map.mp hx
      exact hpage a c hc ha
    simp only
    rcases hfirst : writeTexts ready (pageTexts s (finished tree chapters)) with ⟨d1, first, _ | e⟩
    · rw [hfirst] at hwritten
      have hlast := hsummary d1 (Outline.page s tree (pagesApart s pages)) hwritten
      simp only
      rcases hcontents : writeText d1 s.summaryFile (Outline.page s tree (pagesApart s pages)) with
        ⟨d2, e | _⟩
      · rw [hcontents] at hlast
        exact hlast
      · rw [hcontents] at hlast
        exact hlast
    · rw [hfirst] at hwritten
      exact hwritten
  · rw [hready] at hclear
    exact hclear

/-- How a run goes: the disk stays as it is, or everything that belongs to a tree is written. -/
theorem run_stages (d : Disk) (s : Settings) :
    (run d s).disk = d ∨ ∃ files desk tree pages, Book.ofProject d s = .ok (files, desk, none) ∧
      (treeOf d s desk.book.ordered).1 = .ok (tree, pages) ∧
      (run d s).disk = (writeAll d s tree pages desk.book.ordered).1 ∧
      (run d s).result = (writeAll d s tree pages desk.book.ordered).2.1 := by
  unfold run
  rcases hbook : Book.ofProject d s with e | ⟨files, desk, _ | e⟩
  · exact Or.inl rfl
  · simp only
    split
    · exact Or.inl rfl
    · rcases htree : treeOf d s desk.book.ordered with ⟨t | ⟨tree, pages⟩, notices⟩
      · exact Or.inl rfl
      · exact Or.inr ⟨files, desk, tree, pages, rfl, by rw [htree], rfl, rfl⟩
  · exact Or.inl rfl

/-- What holds of a disk, and of what each step on a disk makes of it. -/
structure Lasts (P : Disk → Prop) : Prop where
  removeTree {d : Disk} {l : Location} : l ≠ [] → P d → P (d.removeTree l)
  makeDirectory {d d' : Disk} {p : Path} : d.makeDirectory p = .ok d' → P d → P d'
  write {d d' : Disk} {p : Path} {bytes : List UInt8} : d.write p bytes = .ok d' → P d → P d'

namespace Lasts

variable {P : Disk → Prop}

theorem layDirectories (hP : Lasts P) (h : P d) (p : Path) : P (d.layDirectories p).1 :=
  Disk.layDirectories_keeps (fun _ hmake ha => hP.makeDirectory hmake ha) h

theorem clear (hP : Lasts P) (h : P d) (s : Settings) : P (clear d s).1 := by
  rcases clear_cases d s with ⟨e, he⟩ | ⟨a, ha, -, hne, -, d', stop, hlay, hclear⟩
  · rw [he]
    exact h
  · have hready : P a := by
      rcases ha with ⟨-, -, rfl⟩ | ⟨-, -, rfl⟩
      · exact hP.removeTree hne h
      · exact h
    have hmade := hP.layDirectories hready (Path.ofLocation (s.outDir.normal []))
    rw [hlay] at hmade
    rw [hclear]
    exact hmade

theorem writeText (hP : Lasts P) (h : P d) (p : Path) (text : String) : P (writeText d p text).1 := by
  have hmade := hP.layDirectories h p.parent
  rcases writeText_cases d p text with ⟨-, hw⟩ | ⟨e, -, hw⟩ | ⟨-, d1, d2, hlay, hwrite, hw⟩
  · rw [hw]
    exact h
  · rw [hw]
    exact hmade
  · rw [hlay] at hmade
    rw [hw]
    exact hP.write hwrite hmade

/-- What every step keeps holds after a run, also where it fails. -/
theorem run (hP : Lasts P) (h : P d) (s : Settings) : P (run d s).disk := by
  rcases run_stages d s with hsame | ⟨files, desk, tree, pages, -, -, hdisk, -⟩
  · rw [hsame]
    exact h
  · rw [hdisk]
    exact writeAll_keeps (hP.clear h s) (fun _ _ _ ha => hP.writeText ha _ _)
      fun _ _ ha => hP.writeText ha _ _

end Lasts

/-- What stands at a place after a run. -/
theorem fileAt_run_eq (d : Disk) (s : Settings) (l : Location) :
    (run d s).disk.fileAt l =
      match lastMeeting l (changes d s) with
      | none => d.fileAt l
      | some c => c.leaves := by
  rw [fileAt_run, foldl_after]

end Publish

end Sourcebook
