-- The chapters of a book of project files: their identifiers are names, and the directories of
-- their files lead down from the root.
import Mathlib
import Sourcebook.Book.Basic
import Sourcebook.Contents.Folder
import Sourcebook.Proofs.Book.Edits
import Sourcebook.Proofs.Book.Lines
import Sourcebook.Proofs.Disk.Searches

namespace Sourcebook

/-! ## The selected files -/

namespace Discovery

variable {d : Disk} {s : Settings} {files : List Location}

/-- A place that a pattern leads to: it holds a file, and its path as the pattern spells it is not
taken out. -/
structure Selects (d : Disk) (s : Settings) (parts : List GlobPart) (spelled : List String) : Prop where
  run : ∃ all, Glob.run d s.root parts = .ok all ∧ spelled ∈ all
  file : d.isFile (Glob.placed s.root spelled) = .ok true
  kept : isExcluded ("/".intercalate spelled) s.excluded = false

/-- Every selected file is one that a pattern of the settings leads to. -/
theorem selects_of_mem (h : Discovery.files d s = .ok files) {l : Location} (hl : l ∈ files) :
    ∃ pattern ∈ s.selected, ∃ parts, Glob.parse pattern = .ok parts ∧
      ∃ spelled, Selects d s parts spelled ∧ l = Location.walk s.root spelled := by
  unfold Discovery.files at h
  obtain ⟨lists, hlists, h⟩ := bind_ok h
  cases h
  have hmem : l ∈ lists.flatten := Location.mem_sorted.mp hl
  obtain ⟨found, hfound, hmem⟩ := List.mem_flatten.mp hmem
  obtain ⟨pattern, hselected, hpattern⟩ := mem_of_mapM_ok hlists hfound
  obtain ⟨parts, hparts, hpattern⟩ := bind_ok hpattern
  unfold ofPattern at hpattern
  obtain ⟨all, hall, hpattern⟩ := bind_ok (mapError_ok hpattern)
  obtain ⟨wanted, hwanted, hpattern⟩ := bind_ok hpattern
  cases hpattern
  obtain ⟨spelled, hspelled, rfl⟩ := List.mem_map.mp hmem
  obtain ⟨hin, htest⟩ := ((filterM_ok hwanted).2 spelled).mp hspelled
  unfold isWanted at htest
  obtain ⟨there, hthere, htest⟩ := bind_ok htest
  have hboth : (there && !isExcluded ("/".intercalate spelled) s.excluded) = true :=
    Except.ok.inj htest
  rw [Bool.and_eq_true, Bool.not_eq_true'] at hboth
  obtain ⟨rfl, hkept⟩ := hboth
  exact ⟨pattern, hselected, parts, hparts, spelled, ⟨⟨all, hall, hin⟩, hthere, hkept⟩, rfl⟩

/-- A selected file stands on the disk, at a place of names. -/
theorem mem_files (hd : d.Named) (hs : s.root.Named) (h : Discovery.files d s = .ok files)
    {l : Location} (hl : l ∈ files) : l.Named ∧ ∃ bytes, d.fileAt l = some bytes := by
  obtain ⟨pattern, -, parts, hparts, spelled, ⟨⟨all, hall, hin⟩, hthere, -⟩, rfl⟩ :=
    selects_of_mem h hl
  refine ⟨fun n hn => ?_, ?_⟩
  · rcases Location.mem_walk hn with hn | ⟨hn, hne⟩
    · exact hs n hn
    · refine ⟨hne, ?_⟩
      rcases Glob.mem_of_run hall hin hn with ⟨x, hx, hn⟩ | hn
      · exact (hd x hx n hn).2
      · exact Glob.slash_of_parse hparts hn
  · have hfile := Disk.fileAt_of_isFile hthere
    rwa [Path.normal_eq, show (Glob.placed s.root spelled).parts = s.root ++ spelled from rfl,
      Location.walk_append, hs.walk_eq] at hfile

end Discovery

/-! ## Events -/

/-- A declaration names a chapter by a name, and stands in a file at a place of names. -/
def Event.Declares (e : Event) : Prop :=
  ∀ source n id title, e = .declare source n id title → source.Named ∧ '/' ∉ id.toList

namespace FileState

theorem Fits.declares {s : FileState} {e : Event} (h : Fits s e) : e.Declares := by
  intro source n id title he
  subst he
  cases h with
  | about _ habout => cases habout

theorem readLine_declares {s : FileState} (hs : s.source.Named) {n : Nat} {line : List Char}
    {e : Event} (h : e ∈ (s.readLine n line).events) : e.Declares := by
  rcases readLine_fits h with ⟨i, t, hline, rfl⟩ | h
  · intro source m id title he
    cases he
    exact ⟨hs, Directive.slash_of_declare hline⟩
  · exact h.declares

theorem readLines_declares {s : FileState} (hs : s.source.Named) {n : Nat} {lines : List (List Char)}
    {e : Event} (h : e ∈ (s.readLines n lines).1) : e.Declares := by
  induction lines generalizing s n with
  | nil => exact (closing_fits h).declares
  | cons line rest ih =>
    simp only [readLines] at h
    split at h
    · exact readLine_declares hs h
    · rcases List.mem_append.mp h with h | h
      · exact readLine_declares hs h
      · refine ih ?_ h
        rw [(s.readLine_state n line).1]
        exact hs

end FileState

/-! ## Chapters -/

/-- A chapter as a book of project files has it. -/
structure Chapter.Fresh (c : Chapter) : Prop where
  id : '/' ∉ c.id.toList
  folder : c.folder = none
  dir : ∀ n ∈ Tree.segments c.sourceDir, LeadsDown n

namespace Book

theorem segments_sourceDir {root source : Location} (h : source.Named) :
    ∀ n ∈ Tree.segments (sourceDir root source), LeadsDown n := by
  unfold sourceDir
  cases hb : Location.below? root (Location.parent source) with
  | none =>
    intro n hn
    simp [Tree.segments, Path.partsOf, Text.splitOn] at hn
  | some names =>
    have hnames : ∀ n ∈ names, n ≠ ".." ∧ '/' ∉ n.toList := fun n hn =>
      h n (List.mem_of_mem_dropLast (Location.mem_below? hb hn))
    intro n hn
    have hmem := Path.mem_of_mem_partsOf_intercalate (fun m hm => (hnames m hm).2) hn
    exact ⟨(Path.mem_partsOf hn).1, (Path.mem_partsOf hn).2, (hnames n hmem).1⟩

/-- All chapters of a book are as their declarations made them. -/
def Fresh (b : Book) : Prop := ∀ c ∈ b.chapters, c.Fresh

variable {s : Settings} {b b' : Book}

theorem updateChapter_fresh (hb : b.Fresh) {id : String} {f : Chapter → Chapter}
    (hf : ∀ c : Chapter, c.Fresh → (f c).Fresh) : (b.updateChapter id f).Fresh := by
  intro c hc
  obtain ⟨c', hc', rfl⟩ := List.mem_map.mp hc
  split
  · exact hf c' (hb c' hc')
  · exact hb c' hc'

theorem apply_fresh (hb : b.Fresh) {e : Event} (he : e.Declares) (h : b.apply s e = .ok b') :
    b'.Fresh := by
  have hedit := apply_edit h
  unfold Fresh
  generalize b'.chapters = cs at hedit
  cases hedit with
  | @added source line id title hdeclares _ =>
    obtain ⟨hsource, hid⟩ := he source line id title hdeclares
    intro c hc
    rcases List.mem_append.mp hc with hc | hc
    · exact hb c hc
    · rw [List.mem_singleton.mp hc]
      exact ⟨hid, rfl, segments_sourceDir hsource⟩
  | changed id hf =>
    exact updateChapter_fresh hb fun c hc =>
      ⟨(hf.id c).symm ▸ hc.id, (hf.folder c).trans hc.folder, by rw [hf.dir c]; exact hc.dir⟩
  | same => exact hb

end Book

/-! ## Reading files -/

/-- A property of chapters that no event of a project file ends. -/
def Book.Lasts (s : Settings) (P : List Chapter → Prop) : Prop :=
  ∀ {b b' : Book} {e : Event}, e.Declares → P b.chapters → b.apply s e = .ok b' → P b'.chapters

namespace Desk

variable {disk : Disk} {s : Settings} {d : Desk} {P : List Chapter → Prop}

theorem applyAll_lasts (hP : Book.Lasts s P) {events : List Event} (hd : P d.book.chapters)
    (he : ∀ e ∈ events, e.Declares) : P (d.applyAll s events).1.book.chapters := by
  induction events generalizing d with
  | nil => exact hd
  | cons e rest ih =>
    simp only [applyAll]
    split
    · exact hd
    · next d' hd' =>
      refine ih ?_ fun e he' => he e (List.mem_cons_of_mem _ he')
      unfold apply at hd'
      obtain ⟨book, hbook, hd'⟩ := bind_ok hd'
      cases hd'
      exact hP (he e List.mem_cons_self) hd hbook

theorem readText_lasts (hP : Book.Lasts s P) {source : Location} {text : List Char}
    (hd : P d.book.chapters) (hs : source.Named) :
    P (d.readText disk s source text).1.book.chapters := by
  have hall : P (d.applyAll s (Event.ofText ⟨disk, s, d.listed⟩ source text).1).1.book.chapters :=
    applyAll_lasts hP hd fun e he => FileState.readLines_declares hs he
  unfold readText
  dsimp only
  split
  · next d' conflict hd' =>
    rw [hd'] at hall
    exact hall
  · next d' hd' =>
    rw [hd'] at hall
    split
    · exact hall
    · exact hall

theorem readTextAt_lasts (hP : Book.Lasts s P) {p : Path} {text : List Char}
    (hd : P d.book.chapters) (hp : (p.normal []).Named) :
    P (d.readTextAt disk s p text).1.book.chapters := by
  unfold readTextAt
  split
  · exact hd
  · exact readText_lasts hP hd hp

theorem readSource_lasts (hP : Book.Lasts s P) {l : Location} (hd : P d.book.chapters)
    (hl : l.Named) : P (d.readSource disk s (Path.ofLocation l)).1.book.chapters := by
  unfold readSource
  split
  · exact hd
  · split
    · exact hd
    · split
      · exact hd
      · refine readTextAt_lasts hP hd ?_
        rw [Path.normal_eq, show (Path.ofLocation l).parts = l from rfl, hl.walk_eq]
        exact hl

theorem readSources_lasts (hP : Book.Lasts s P) {ls : List Location} (hd : P d.book.chapters)
    (hls : ∀ l ∈ ls, l.Named) : P (d.readSources disk s ls).1.book.chapters := by
  induction ls generalizing d with
  | nil => exact hd
  | cons l rest ih =>
    have hrest := fun m hm => hls m (List.mem_cons_of_mem _ hm)
    have hone : P (d.readSource disk s (Path.ofLocation l)).1.book.chapters :=
      readSource_lasts hP hd (hls l List.mem_cons_self)
    simp only [readSources]
    split
    · next d' hd' =>
      rw [hd'] at hone
      exact ih hone hrest
    · next d' t hd' =>
      rw [hd'] at hone
      exact ih hone hrest
    · next d' u hd' =>
      rw [hd'] at hone
      exact ih hone hrest
    · next d' e hd' =>
      rw [hd'] at hone
      exact hone

end Desk

namespace Book

/-- What events do not end holds of the chapters of a project. -/
theorem ofProject_lasts {disk : Disk} {s : Settings} {P : List Chapter → Prop} (hP : Lasts s P)
    (hnil : P []) (hd : disk.Named) (hs : s.root.Named) {files : List Location} {desk : Desk}
    {stop : Option ScanError} (h : ofProject disk s = .ok (files, desk, stop)) :
    P desk.book.chapters := by
  unfold ofProject at h
  obtain ⟨found, hfound, h⟩ := bind_ok h
  have hall : P (Desk.readSources disk s ⟨.empty, some found⟩ found).1.book.chapters :=
    Desk.readSources_lasts hP hnil fun l hl => (Discovery.mem_files hd hs hfound hl).1
  have he : Desk.readSources disk s ⟨.empty, some found⟩ found = (desk, stop) :=
    congrArg Prod.snd (Except.ok.inj h)
  rw [he] at hall
  exact hall

theorem ofProject_fresh {disk : Disk} {s : Settings} (hd : disk.Named) (hs : s.root.Named)
    {files : List Location} {desk : Desk} {stop : Option ScanError}
    (h : ofProject disk s = .ok (files, desk, stop)) : desk.book.Fresh :=
  ofProject_lasts (P := fun cs => ∀ c ∈ cs, c.Fresh) (fun he hb happly => apply_fresh hb he happly)
    (fun _ hc => nomatch hc) hd hs h

end Book

end Sourcebook
