-- A run after a run. The directory of the pages is cleared and filled as before, so the second run
-- leaves what the first one left.
import Mathlib
import Sourcebook.Proofs.Publish.Following
import Sourcebook.Proofs.Publish.Frame
import Sourcebook.Proofs.Publish.Inputs
import Sourcebook.Proofs.Publish.Writing

namespace Sourcebook

namespace Publish

open Disk (Twins Aloof)

variable {d d' ready ready' : Disk} {s : Settings} {texts : List (Path × String)}
  {written : List Path} {k : Location}

/-! ## Places under texts -/

/-- What stands at a place when a text was written. -/
def entryAfter (k : Location) (before : Option Entry) (x : Path × String) : Option Entry :=
  if k = x.1.normal [] then some (.file (Text.encode x.2))
  else if x.1.parent.trail.contains k then some .directory
  else before

theorem entryAfter_eq (k : Location) (before : Option Entry) (x : Path × String) :
    entryAfter k before x =
      if k = x.1.normal [] then some (.file (Text.encode x.2))
      else if k ∈ x.1.parent.trail then some .directory
      else before := by
  simp only [entryAfter, List.contains_iff_mem]

theorem get?_writeTexts (h : writeTexts d texts = (d', written, none)) (k : Location) :
    d'.get? k = texts.foldl (entryAfter k) (d.get? k) := by
  induction texts generalizing d written with
  | nil =>
    cases h
    rfl
  | cons x rest ih =>
    obtain ⟨p, text⟩ := x
    simp only [writeTexts] at h
    rcases hx : writeText d p text with ⟨d1, e | _⟩
    · rw [hx] at h
      cases h
    · rw [hx] at h
      simp only at h
      rcases hr : writeTexts d1 rest with ⟨d2, more, stop⟩
      rw [hr] at h
      cases h
      rw [ih hr, get?_writeText hx, List.foldl_cons, entryAfter_eq]

/-- Texts leave a place alone, or decide what stands there. -/
theorem foldl_entryAfter (k : Location) (texts : List (Path × String)) :
    (∀ b, texts.foldl (entryAfter k) b = b) ∨ ∃ e, ∀ b, texts.foldl (entryAfter k) b = e := by
  induction texts with
  | nil => exact Or.inl fun _ => rfl
  | cons x rest ih =>
    rcases ih with hsame | ⟨e, he⟩
    · by_cases hend : k = x.1.normal []
      · refine Or.inr ⟨some (.file (Text.encode x.2)), fun b => ?_⟩
        rw [List.foldl_cons, hsame, entryAfter_eq, if_pos hend]
      · by_cases hway : k ∈ x.1.parent.trail
        · refine Or.inr ⟨some .directory, fun b => ?_⟩
          rw [List.foldl_cons, hsame, entryAfter_eq, if_neg hend, if_pos hway]
        · refine Or.inl fun b => ?_
          rw [List.foldl_cons, hsame, entryAfter_eq, if_neg hend, if_neg hway]
    · exact Or.inr ⟨e, fun b => he _⟩

/-- What stands at a place under texts stood there before, or is one of the texts, or is a directory
on the way to one. -/
theorem foldl_entryAfter_cases (k : Location) (texts : List (Path × String)) (b : Option Entry) :
    texts.foldl (entryAfter k) b = b ∨
      (∃ x ∈ texts, k = x.1.normal [] ∧
        texts.foldl (entryAfter k) b = some (.file (Text.encode x.2))) ∨
      ∃ x ∈ texts, k ∈ x.1.parent.trail ∧ texts.foldl (entryAfter k) b = some .directory := by
  induction texts generalizing b with
  | nil => exact Or.inl rfl
  | cons x rest ih =>
    rw [List.foldl_cons]
    rcases ih (entryAfter k b x) with hsame | ⟨y, hy, hend, he⟩ | ⟨y, hy, hway, he⟩
    · rw [hsame]
      by_cases hend : k = x.1.normal []
      · exact Or.inr (Or.inl ⟨x, List.mem_cons_self, hend, if_pos hend⟩)
      · by_cases hway : k ∈ x.1.parent.trail
        · exact Or.inr (Or.inr ⟨x, List.mem_cons_self, hway, by
            rw [entryAfter_eq, if_neg hend, if_pos hway]⟩)
        · exact Or.inl (by rw [entryAfter_eq, if_neg hend, if_neg hway])
    · exact Or.inr (Or.inl ⟨y, List.mem_cons_of_mem _ hy, hend, he⟩)
    · exact Or.inr (Or.inr ⟨y, List.mem_cons_of_mem _ hy, hway, he⟩)

/-- Texts that were written can be written where every place is as it was before them or as they
left it, and leave the same. -/
theorem writeTexts_again (h : writeTexts ready texts = (d', written, none))
    (hplaces : ∀ k, ready'.get? k = ready.get? k ∨ ready'.get? k = d'.get? k) :
    ∃ d'', writeTexts ready' texts = (d'', written, none) ∧ ∀ k, d''.get? k = d'.get? k := by
  have hstop : (writeTexts ready texts).2.2 = none := by rw [h]
  have hapart := apart_of_written hstop
  obtain ⟨hwritable, hpairs⟩ := writeTexts_returns_iff.mp hstop
  have hagain : ∀ x ∈ texts, Writable ready' x.1 := by
    intro x hx
    have hw := hwritable x hx
    refine ⟨hw.null, hw.short, fun k hk => ?_, ?_, hw.apart⟩
    · rcases hplaces k with he | he
      · rw [Disk.fileAt_congr he]
        exact hw.way k hk
      · rw [get?_writeTexts h] at he
        rcases foldl_entryAfter_cases k texts (ready.get? k) with hsame | ⟨y, hy, rfl, -⟩ |
          ⟨y, -, -, hdir⟩
        · rw [Disk.fileAt_congr (he.trans hsame)]
          exact hw.way k hk
        · exact absurd hk (hapart y hy x hx).1
        · unfold Disk.fileAt
          rw [he, hdir]
    · rcases hplaces (x.1.normal []) with he | he
      · rw [he]
        exact hw.place
      · rw [he, get?_writeTexts h]
        rcases foldl_entryAfter_cases (x.1.normal []) texts (ready.get? (x.1.normal [])) with
          hsame | ⟨y, -, -, hfile⟩ | ⟨y, hy, hway, -⟩
        · rw [hsame]
          exact hw.place
        · simp [hfile]
        · exact absurd hway (hapart x hx y hy).1
  rcases hrest : writeTexts ready' texts with ⟨d'', again, stop⟩
  have hnone : (writeTexts ready' texts).2.2 = none := writeTexts_returns_iff.mpr ⟨hagain, hpairs⟩
  rw [hrest] at hnone
  obtain rfl : stop = none := hnone
  refine ⟨d'', ?_, fun k => ?_⟩
  · rw [(writeTexts_returns hrest).1, (writeTexts_returns h).1]
  · rw [get?_writeTexts hrest, get?_writeTexts h]
    rcases foldl_entryAfter k texts with hsame | ⟨e, he⟩
    · rw [hsame, hsame]
      rcases hplaces k with hk | hk
      · exact hk
      · rw [hk, get?_writeTexts h, hsame]
    · rw [he, he]

/-! ## The directory of the pages -/

/-- Directories that were laid out have a path that is not too long. -/
theorem short_of_laid {p : Path} (h : d.layDirectories p = (d', none)) (hp : p.parts ≠ []) :
    p.Short := by
  obtain ⟨root, parts⟩ := p
  obtain ⟨above, part, rfl⟩ := (List.eq_nil_or_concat' parts).resolve_left hp
  have hmade : ∀ {a b : Disk}, a.makeDirectory ⟨root, above ++ [part]⟩ = .ok b →
      Path.Short ⟨root, above ++ [part]⟩ := fun hmake =>
    (Disk.locate_eq_ok.mp (Disk.makeDirectory_eq_ok.mp hmake).1).2.1
  unfold Disk.layDirectories at h
  rw [List.reverse_concat'] at h
  have hcases := Disk.makeDirectoriesFrom_ok h
  simp only [List.reverse_cons, List.reverse_reverse] at hcases
  rcases hcases with hmake | ⟨-, hthere⟩ | ⟨d1, -, hmake | ⟨-, hthere⟩⟩
  · exact hmade hmake
  · exact (Disk.isDir_true hthere).1
  · exact hmade hmake
  · exact (Disk.isDir_true hthere).1

/-- The directory of the pages when it is ready: there is nothing in it. -/
theorem get?_clear (hw : d.WellFormed) (h : clear d s = (ready, none)) (k : Location) :
    ready.get? k =
      if k <+: s.outDir.normal [] then some .directory
      else if s.outDir.normal [] <+: k then none
      else d.get? k := by
  rcases clear_cases d s with ⟨e, he⟩ | ⟨a, ha, hnull, hne, -, d1, stop, hlay, hclear⟩
  · rw [he] at h
    cases h
  · rw [hclear, Prod.mk.injEq, Option.map_eq_none_iff] at h
    obtain ⟨rfl, rfl⟩ := h
    have hmade := Disk.layDirectories_made hlay
    have hway : k ∈ (Path.ofLocation (s.outDir.normal [])).trail ↔ k <+: s.outDir.normal [] :=
      Path.mem_trail_ofLocation s.outDir.normal_down
    split
    · next hin => exact hmade.trail k (hway.mpr hin)
    · next hout =>
      rw [hmade.apart k fun hin => hout (hway.mp hin)]
      rcases ha with ⟨-, -, rfl⟩ | ⟨hfind, -, rfl⟩
      · rw [Disk.get?_removeTree hne]
        simp only [List.isPrefixOf_iff_prefix]
      · split
        · next hbelow =>
          -- Nothing stands below a place where no directory was found.
          cases hk : a.get? k with
          | none => rfl
          | some e =>
            have hdir := hw.above hk hbelow fun he => hout (he ▸ List.prefix_refl _)
            exact absurd hfind (find?_of_stands hw hnull hdir)
        · rfl

theorem outside_of_clear (h : clear d s = (ready, none)) : ¬ s.outDir.normal [] <+: s.root := by
  rcases clear_cases d s with ⟨e, he⟩ | ⟨-, -, -, -, hroot, -⟩
  · rw [he] at h
    cases h
  · exact hroot

/-- A directory of the pages that was made ready can be cleared again. -/
theorem clear_again (hw : d'.WellFormed) (h : clear d s = (ready, none))
    (hdir : d'.get? (s.outDir.normal []) = some .directory) :
    ∃ ready', clear d' s = (ready', none) := by
  rcases clear_cases d s with ⟨e, he⟩ | ⟨a, -, hnull, hne, hroot, d1, stop, hlay, hclear⟩
  · rw [he] at h
    cases h
  · rw [hclear, Prod.mk.injEq, Option.map_eq_none_iff] at h
    obtain ⟨rfl, rfl⟩ := h
    have hfind : d'.find? (Path.ofLocation (s.outDir.normal [])) = .ok (some .directory) := by
      rw [Disk.find?_of_plain hw (short_of_laid hlay hne) s.outDir.normal_down,
        hasNull_normal hnull, Path.normal_ofLocation s.outDir.normal_down, hdir]
      rfl
    obtain ⟨ready', hready⟩ := cleared_returns hne hfind
    refine ⟨ready', ?_⟩
    have hout : (s.outDir.normal []).isPrefixOf s.root = false := by
      rwa [Bool.eq_false_iff, ne_eq, List.isPrefixOf_iff_prefix]
    unfold clear
    simp only [hnull, hout, hfind, hready, Bool.false_eq_true, if_false, Option.map_none]

/-! ## The whole run -/

variable {tree : Tree} {pages : List ReferencePage} {chapters : List Chapter}

/-- All texts of a run: the pages, and then the table of contents. -/
def allTexts (s : Settings) (tree : Tree) (pages : List ReferencePage) (chapters : List Chapter) :
    List (Path × String) :=
  pageTexts s (finished tree chapters) ++
    [(s.summaryFile, Outline.page s tree (pagesApart s pages))]

theorem writeTexts_append {more : List (Path × String)} {d1 : Disk} {first : List Path}
    (h : writeTexts d texts = (d1, first, none)) :
    writeTexts d (texts ++ more) = ((writeTexts d1 more).1, first ++ (writeTexts d1 more).2.1,
      (writeTexts d1 more).2.2) := by
  induction texts generalizing d first with
  | nil =>
    cases h
    rfl
  | cons x rest ih =>
    obtain ⟨p, text⟩ := x
    simp only [List.cons_append, writeTexts] at h ⊢
    rcases hx : writeText d p text with ⟨d2, e | _⟩
    · rw [hx] at h
      cases h
    · rw [hx] at h
      simp only at h ⊢
      rcases hrest : writeTexts d2 rest with ⟨d3, front, stop⟩
      rw [hrest] at h
      cases h
      rw [ih hrest]
      rfl

/-- Everything is written where the directory of the pages is ready and all texts can be written. -/
theorem writeAll_eq_ok :
    (writeAll d s tree pages chapters).1 = d' ∧
        (writeAll d s tree pages chapters).2.1 = .ok written ↔
      ∃ ready, clear d s = (ready, none) ∧
        writeTexts ready (allTexts s tree pages chapters) = (d', written, none) := by
  unfold writeAll
  rcases clear d s with ⟨ready, _ | e⟩
  · simp only [Prod.mk.injEq, and_true, exists_eq_left']
    rcases hfirst : writeTexts ready (pageTexts s (finished tree chapters)) with ⟨d1, first, _ | e⟩
    · unfold allTexts
      rw [writeTexts_append hfirst]
      simp only [writeTexts]
      rcases writeText d1 s.summaryFile (Outline.page s tree (pagesApart s pages)) with ⟨d2, e | _⟩
      · simp
      · simp
    · -- Where the pages cannot be written, neither can all texts.
      refine iff_of_false ?_ fun h => ?_
      · rintro ⟨-, hwritten⟩
        cases hwritten
      have hall := writeTexts_returns_iff.mp (congrArg (·.2.2) h)
      have hpages : (writeTexts ready (pageTexts s (finished tree chapters))).2.2 = none :=
        writeTexts_returns_iff.mpr ⟨fun x hx => hall.1 x (List.mem_append_left _ hx),
          hall.2.sublist (List.sublist_append_left _ _)⟩
      rw [hfirst] at hpages
      cases hpages
  · simp

/-- Everything that was written is written again, and is the same again. -/
theorem writeAll_again (hw : d.WellFormed) (hw' : d'.WellFormed)
    (h : (writeAll d s tree pages chapters).1 = d')
    (hresult : (writeAll d s tree pages chapters).2.1 = .ok written) :
    (writeAll d' s tree pages chapters).2.1 = .ok written ∧
      ∀ k, (writeAll d' s tree pages chapters).1.get? k = d'.get? k := by
  obtain ⟨ready, hclear, htexts⟩ := writeAll_eq_ok.mp ⟨h, hresult⟩
  have hready := get?_clear hw hclear
  have hdir : d'.get? (s.outDir.normal []) = some .directory := by
    have hkept : (writeTexts ready (allTexts s tree pages chapters)).1.get? (s.outDir.normal []) =
        some .directory :=
      writeTexts_keeps (P := fun a => a.get? (s.outDir.normal []) = some .directory)
        (fun a x _ ha => writeText_directory x.1 x.2 ha) (by rw [hready, if_pos (List.prefix_refl _)])
    rwa [htexts] at hkept
  obtain ⟨ready', hclear'⟩ := clear_again hw' hclear hdir
  have hready' := get?_clear hw' hclear'
  have hplaces : ∀ k, ready'.get? k = ready.get? k ∨ ready'.get? k = d'.get? k := by
    intro k
    rw [hready, hready']
    split
    · exact Or.inl rfl
    · split
      · exact Or.inl rfl
      · exact Or.inr rfl
  obtain ⟨d'', hagain, hsame⟩ := writeTexts_again htexts hplaces
  obtain ⟨hdisk, hwritten⟩ := writeAll_eq_ok.mpr ⟨ready', hclear', hagain⟩
  exact ⟨hwritten, fun k => by rw [hdisk, hsame]⟩

/-- The places that a run touches: those in the directory of the pages, the table of contents, and
directories that were not there before. -/
def Touched (before after : Disk) (s : Settings) (l : Location) : Prop :=
  s.outDir.normal [] <+: l ∨ l = s.summaryFile.normal [] ∨
    before.get? l = none ∧ after.get? l = some .directory

instance (before after : Disk) (s : Settings) : DecidablePred (Touched before after s) :=
  fun _ => inferInstanceAs (Decidable (_ ∨ _))

theorem lasts_listed : Lasts Disk.Listed where
  removeTree hne h := h.removeTree hne
  makeDirectory hmake h := h.makeDirectory hmake
  write hwrite h := h.write hwrite

theorem run_disk_of_nothing (hr : (run d s).result = .ok []) : (run d s).disk = d := by
  rcases run_stages d s with hsame | ⟨files, desk, tree, pages, -, -, hdisk, hresult⟩
  · exact hsame
  · rw [hdisk]
    exact writeAll_unbegun (Or.inl (hresult ▸ hr))

/-- A run with chapters and a tree writes them, and warns of what came up on the way to the tree. -/
theorem run_eq {files : List Location} {desk : Desk}
    (hbook : Book.ofProject d s = .ok (files, desk, none)) (hne : desk.book.ordered ≠ [])
    (htree : (treeOf d s desk.book.ordered).1 = .ok (tree, pages)) :
    (run d s).disk = (writeAll d s tree pages desk.book.ordered).1 ∧
      (run d s).result = (writeAll d s tree pages desk.book.ordered).2.1 ∧
      (run d s).warnings =
        desk.book.warnings ++ (treeOf d s desk.book.ordered).2.filterMap Notice.warning? := by
  unfold run
  rw [hbook]
  simp only [List.isEmpty_iff, if_neg hne, htree, and_self]

/-- The root of a project with chapters is a directory. -/
theorem root_of_chapters (hs : s.root.Named) {files : List Location} {desk : Desk}
    (hbook : Book.ofProject d s = .ok (files, desk, none)) (hne : desk.book.ordered ≠ []) :
    d.get? s.root = some .directory := by
  rw [Book.ofProject_eq] at hbook
  obtain ⟨found, hfound, hread⟩ := map_ok hbook
  cases found with
  | nil =>
    cases hread
    exact absurd List.mergeSort_nil hne
  | cons l rest =>
    obtain ⟨p, ⟨pattern, -, parts, -, hp⟩, -⟩ :=
      Discovery.restsOn_of_mem (fun hup => (hs _ hup).1 rfl) hfound List.mem_cons_self
    simpa [Disk.isDirAt] using hp.dir

/-- Where a run wrote something, the disk it left is a twin of the one before. -/
theorem twins_of_written (hw : d.WellFormed)
    (hpaged : ∀ c ∈ finished tree chapters, c.Paged)
    (hdisk : (run d s).disk = (writeAll d s tree pages chapters).1) :
    Twins (Touched d (run d s).disk s) d (run d s).disk where
  left := hw
  right := run_wellFormed hw s
  same k hk := by
    have hkept := writeAll_keptAt (d := d) pages hpaged (fun hout => hk (Or.inl hout))
      fun hsummary => hk (Or.inr (Or.inl hsummary))
    rw [← hdisk] at hkept
    exact hkept.resolve_right fun hnew => hk (Or.inr (Or.inr hnew.2))

/-- A second run gives what the first one gave, and leaves the disk as that left it, if nothing that
one of them looks up was touched. A path that is looked up has to be aloof: its place was not
touched, and the way to it leads through no touched place, or has no parent step and is not too
long. -/
theorem a_second_run_changes_nothing (hd : d.Named) (hw : d.WellFormed) (hl : d.Listed)
    (hs : s.root.Named) (hr : (run d s).result = .ok written)
    (hfirst : ∀ p, LooksUp d s p → Aloof (Touched d (run d s).disk s) p)
    (hsecond : ∀ p, LooksUp (run d s).disk s p → Aloof (Touched d (run d s).disk s) p) :
    (run (run d s).disk s).result = .ok written ∧
      (run (run d s).disk s).warnings = (run d s).warnings ∧
      ∀ l, (run (run d s).disk s).disk.get? l = (run d s).disk.get? l := by
  by_cases hnil : written = []
  · have hsame := run_disk_of_nothing (hnil ▸ hr)
    rw [hsame]
    exact ⟨hr, rfl, fun l => by rw [hsame]⟩
  · obtain ⟨desk, tree, pages, hreturns⟩ := returns_of_written hr hnil
    obtain ⟨files, hbook⟩ := hreturns.book
    obtain ⟨hdisk, hresult, hwarnings⟩ := run_eq hbook hreturns.chapters hreturns.arranged
    have hfresh : ∀ c ∈ desk.book.ordered, c.Fresh := fun c hc =>
      Book.ofProject_fresh hd hs hbook c (by simpa [Book.ordered] using hc)
    have hpaged := finished_paged (treeOf_paged hd hfresh hreturns.arranged) hfresh
    have htwins := twins_of_written hw hpaged hdisk
    have hdir : (run d s).disk.isDirAt s.root = d.isDirAt s.root := by
      have hroot := root_of_chapters hs hbook hreturns.chapters
      have hstays : (run d s).disk.get? s.root = some .directory := by
        rw [hdisk]
        obtain ⟨ready, hclear, -⟩ := writeAll_eq_ok.mp ⟨hdisk.symm, hresult ▸ hr⟩
        exact writeAll_directory tree pages _ (outside_of_clear hclear) hroot
      unfold Disk.isDirAt
      rw [hstays, hroot]
    obtain ⟨hbook', htree'⟩ := sees_again htwins hl (lasts_listed.run hl s)
      (fun hup => (hs _ hup).1 rfl) hdir hfirst hsecond hbook hreturns.arranged
    rw [hbook] at hbook'
    obtain ⟨hdisk', hresult', hwarnings'⟩ :=
      run_eq hbook' hreturns.chapters (htree' ▸ hreturns.arranged)
    obtain ⟨hwritten, hsame⟩ := writeAll_again hw (run_wellFormed hw s) hdisk.symm (hresult ▸ hr)
    refine ⟨?_, ?_, fun l => ?_⟩
    · rw [hresult', hwritten]
    · rw [hwarnings', hwarnings, htree']
    · rw [hdisk', hsame]

/-! ## A project with an include -/

/-- A file with a chapter, and another file that it includes by a name. -/
def includingDisk (target : String) : Disk :=
  ⟨[(["p"], .directory), (["p", "lib"], .directory),
    (["p", "lib", "X.sol"], .file (Text.encode "contract X \x7b\x7d\n")),
    (["p", "test"], .directory),
    (["p", "test", "a.ts"],
      .file (Text.encode ("/// @chapter: a \"A\"\n/// @include: \"" ++ target ++ "\"\n")))]⟩

/-- The disk after a run, with the page of the chapter. -/
def includedDisk (target page : String) : Disk :=
  ⟨(["p", "docs", "SUMMARY.md"], .file (Text.encode
      "# Table of Contents\n\n* [Introduction](README.md)\n* [A](chapters/a.md)\n")) ::
    (["p", "docs", "chapters", "a.md"], .file (Text.encode page)) ::
    (["p", "docs", "chapters"], .directory) :: (["p", "docs"], .directory) ::
    (includingDisk target).entries⟩

/-- The page of the chapter with the file that it includes. -/
def includedPage : String :=
  "---\ntitle: A\n---\n\n## Overview\n\n```solidity\ncontract X \x7b\x7d\n```\n\n---\n\n"

/-- A target whose way leads through the directory of the table of contents and back. -/
def roundabout : String := "/p/docs/../lib/X.sol"

/-- The page of the chapter without the file. -/
def barePage : String := "---\ntitle: A\n---\n\n"

def includingFiles : List Location := [["p", "test", "a.ts"]]

def includingPages : List Path :=
  [⟨.single, ["p", "docs", "chapters", "a.md"]⟩, ⟨.single, ["p", "docs", "SUMMARY.md"]⟩]

/-- The book of the project. -/
def includingRead (d : Disk) : Desk × Option ScanError :=
  Desk.readSources d (.ofRoot ["p"]) ⟨.empty, some includingFiles⟩ includingFiles

/-- The paths that a run over the project looks up. -/
def includingLookups (d : Disk) : List Path :=
  ⟨.single, ["p", "test", "a.ts"]⟩ ::
    Desk.lookups d (.ofRoot ["p"]) includingFiles ["p", "test", "a.ts"] ++
    (Settings.ofRoot ["p"]).apiDir ::
      overridePaths (planted (.ofRoot ["p"]) (includingRead d).1.book.chapters [])

/-- The one file is selected and read, it has chapters, and there is no reference. -/
structure ReadsOne (d : Disk) : Prop where
  files : Discovery.files d (.ofRoot ["p"]) = .ok includingFiles
  read : (includingRead d).2 = none
  rising : (includingRead d).1.book.chapters.Pairwise (·.priority ≤ ·.priority)
  chapters : (includingRead d).1.book.chapters ≠ []
  reference : ReferencePage.collect d (Settings.ofRoot ["p"]).apiDir = .ok ([], [])
  missing : d.isDirAt ((Settings.ofRoot ["p"]).apiDir.normal []) = false

theorem ReadsOne.book (h : ReadsOne d) :
    Desk.readSources d (.ofRoot ["p"]) ⟨.empty, some includingFiles⟩ includingFiles =
      ((includingRead d).1, none) :=
  Prod.ext rfl h.read

theorem ReadsOne.looksUp (h : ReadsOne d) (hd : d.Named) {p : Path}
    (hp : LooksUp d (.ofRoot ["p"]) p) : p ∈ includingLookups d := by
  have hbook := Book.ofProject_of_read h.files h.book
  have hbelow : ∀ pattern ∈ (Settings.ofRoot ["p"]).selected, StaysBelow pattern := by decide
  unfold includingLookups
  rcases hp.plain hd hbelow hbook h.reference with ⟨l, hl, rfl | hp⟩ | (rfl | hp) | hp
  · rw [List.mem_singleton.mp hl]
    exact List.mem_cons_self
  · rw [List.mem_singleton.mp hl] at hp
    exact List.mem_append_left _ (List.mem_cons_of_mem _ hp)
  · exact List.mem_append_right _ List.mem_cons_self
  · have hdir := hp.dir
    rw [h.missing] at hdir
    cases hdir
  · rw [Book.ordered_of_rising h.rising] at hp
    exact List.mem_append_right _ (List.mem_cons_of_mem _ hp)

/-- The disk that a run leaves and the pages that it tells of, from what was read. -/
def includingRun (d : Disk) : Disk × Except RunError (List Path) :=
  let chapters := (includingRead d).1.book.chapters
  match (treeOf d (.ofRoot ["p"]) chapters).1 with
  | .error t => (d, .error (.trouble t))
  | .ok (tree, pages) =>
    let w := writeAll d (.ofRoot ["p"]) tree pages chapters
    (w.1, w.2.1)

theorem ReadsOne.run_eq (h : ReadsOne d) :
    ((run d (.ofRoot ["p"])).disk, (run d (.ofRoot ["p"])).result) = includingRun d :=
  run_of_rising h.files h.book h.rising h.chapters

/-- The tests that show that a disk reads as one file. -/
theorem ReadsOne.of_tests
    (h : (Settings.ofRoot ["p"]).selected.mapM (fun pattern => do
          (Discovery.ofPattern d (.ofRoot ["p"]) (← Glob.parse pattern)).mapError .trouble) =
            .ok [includingFiles, []] ∧
        (includingRead d).2 = none ∧
        (includingRead d).1.book.chapters.Pairwise (·.priority ≤ ·.priority) ∧
        (includingRead d).1.book.chapters ≠ [] ∧
        ReferencePage.collect d (Settings.ofRoot ["p"]).apiDir = .ok ([], []) ∧
        d.isDirAt ((Settings.ofRoot ["p"]).apiDir.normal []) = false) : ReadsOne d := by
  obtain ⟨hfound, hread, hrising, hchapters, hreference, hmissing⟩ := h
  have hfiles := Discovery.files_of_rising [includingFiles, []] hfound (by decide)
  exact ⟨hfiles, hread, hrising, hchapters, hreference, hmissing⟩

/-- Every disk of this section reads as one file. -/
theorem readsOne_disks : ReadsOne (includingDisk "lib/X.sol") ∧
    ReadsOne (includedDisk "lib/X.sol" includedPage) ∧ ReadsOne (includingDisk roundabout) ∧
    ReadsOne (includedDisk roundabout barePage) := by
  refine ⟨.of_tests ?_, .of_tests ?_, .of_tests ?_, .of_tests ?_⟩ <;> decide +kernel

theorem readsOne_including : ReadsOne (includingDisk "lib/X.sol") := readsOne_disks.1

theorem readsOne_included : ReadsOne (includedDisk "lib/X.sol" includedPage) := readsOne_disks.2.1

theorem readsOne_closed : ReadsOne (includingDisk roundabout) := readsOne_disks.2.2.1

theorem readsOne_opened : ReadsOne (includedDisk roundabout barePage) := readsOne_disks.2.2.2

/-- All that is computed of the runs over these disks. -/
theorem includingRun_told :
    ((includingRun (includingDisk "lib/X.sol")).1.entries =
        (includedDisk "lib/X.sol" includedPage).entries ∧
      (includingRun (includingDisk "lib/X.sol")).2 = .ok includingPages) ∧
    ((includingRun (includingDisk roundabout)).1.entries =
        (includedDisk roundabout barePage).entries ∧
      (includingRun (includingDisk roundabout)).2 = .ok includingPages) ∧
    (includingRun (includedDisk roundabout barePage)).1.get? ["p", "docs", "chapters", "a.md"] =
        some (.file (Text.encode includedPage)) ∧
      (includingRun (includedDisk roundabout barePage)).2 = .ok includingPages := by
  refine ⟨?_, ?_, ?_⟩ <;> decide +kernel

theorem including_run :
    (run (includingDisk "lib/X.sol") (.ofRoot ["p"])).disk = includedDisk "lib/X.sol" includedPage ∧
      (run (includingDisk "lib/X.sol") (.ofRoot ["p"])).result = .ok includingPages := by
  have hrun := readsOne_including.run_eq
  obtain ⟨⟨hdisk, hpages⟩, -, -⟩ := includingRun_told
  exact ⟨(congrArg Prod.fst hrun).trans (congrArg Disk.mk hdisk),
    (congrArg Prod.snd hrun).trans hpages⟩

theorem an_include_is_found_again :
    let s := Settings.ofRoot ["p"]
    let d := includingDisk "lib/X.sol"
    let left := (run d s).disk
    d.Named ∧ d.WellFormed ∧ d.Listed ∧ s.root.Named ∧ (run d s).result = .ok includingPages ∧
      (∀ p, LooksUp d s p → Aloof (Touched d left s) p) ∧
      (∀ p, LooksUp left s p → Aloof (Touched d left s) p) ∧
      (run left s).result = .ok includingPages ∧ ∀ l, (run left s).disk.get? l = left.get? l := by
  intro s d left
  have hd : d.Named := by decide
  have hw : d.WellFormed := Disk.wellFormed_of_entries (by decide)
  have hl : d.Listed := by decide +kernel
  have hs : s.root.Named := by decide
  have hr : (run d s).result = .ok includingPages := including_run.2
  have hleft : left = includedDisk "lib/X.sol" includedPage := including_run.1
  have hfirst : ∀ p, LooksUp d s p → Aloof (Touched d left s) p := by
    have hall : ∀ p ∈ includingLookups d,
        Aloof (Touched d (includedDisk "lib/X.sol" includedPage) s) p := by decide +kernel
    exact fun p hp => hleft ▸ hall p (readsOne_including.looksUp hd hp)
  have hsecond : ∀ p, LooksUp left s p → Aloof (Touched d left s) p := by
    have hnamed : (includedDisk "lib/X.sol" includedPage).Named := by decide
    have hall : ∀ p ∈ includingLookups (includedDisk "lib/X.sol" includedPage),
        Aloof (Touched d (includedDisk "lib/X.sol" includedPage) s) p := by decide +kernel
    rw [hleft]
    exact fun p hp => hall p (readsOne_included.looksUp hnamed hp)
  obtain ⟨hresult, -, hsame⟩ := a_second_run_changes_nothing hd hw hl hs hr hfirst hsecond
  exact ⟨hd, hw, hl, hs, hr, hfirst, hsecond, hresult, hsame⟩

/-! ## An include behind a parent step -/

theorem ReadsOne.warnings (h : ReadsOne d) :
    (run d (.ofRoot ["p"])).warnings = (includingRead d).1.book.warnings ++
      (treeOf d (.ofRoot ["p"]) (includingRead d).1.book.chapters).2.filterMap Notice.warning? := by
  unfold run
  rw [Book.ofProject_of_read h.files h.book]
  simp only [Book.ordered_of_rising h.rising, List.isEmpty_iff, if_neg h.chapters]

theorem closed_run :
    (run (includingDisk roundabout) (.ofRoot ["p"])).disk = includedDisk roundabout barePage ∧
      (run (includingDisk roundabout) (.ofRoot ["p"])).result = .ok includingPages := by
  have hrun := readsOne_closed.run_eq
  obtain ⟨-, ⟨hdisk, hpages⟩, -⟩ := includingRun_told
  exact ⟨(congrArg Prod.fst hrun).trans (congrArg Disk.mk hdisk),
    (congrArg Prod.snd hrun).trans hpages⟩

theorem opened_run :
    ((run (includedDisk roundabout barePage) (.ofRoot ["p"])).disk.get?
        ["p", "docs", "chapters", "a.md"] = some (.file (Text.encode includedPage))) ∧
      (run (includedDisk roundabout barePage) (.ofRoot ["p"])).result = .ok includingPages := by
  have hrun := readsOne_opened.run_eq
  obtain ⟨-, -, hpage, hpages⟩ := includingRun_told
  exact ⟨(congrArg (fun r => Disk.get? r.1 _) hrun).trans hpage,
    (congrArg Prod.snd hrun).trans hpages⟩

/-- The first run makes the directory that the way to an include leads through. No path that is
looked up ends at a place that was touched, and still the second run finds the file that was missing
in the first one. -/
theorem a_run_can_open_the_way_to_an_include :
    let s := Settings.ofRoot ["p"]
    let d := includingDisk roundabout
    let left := (run d s).disk
    d.Named ∧ d.WellFormed ∧ d.Listed ∧ s.root.Named ∧ (run d s).result = .ok includingPages ∧
      (∀ p, LooksUp d s p → ¬ Touched d left s (p.normal [])) ∧
      (∀ p, LooksUp left s p → ¬ Touched d left s (p.normal [])) ∧
      (run d s).warnings = ["/p/test/a.ts:2: missing include '/p/docs/../lib/X.sol'"] ∧
      (run left s).result = .ok includingPages ∧ (run left s).warnings = [] ∧
      (run left s).disk.get? ["p", "docs", "chapters", "a.md"] ≠
        left.get? ["p", "docs", "chapters", "a.md"] := by
  intro s d left
  have hd : d.Named := by decide
  have hleft : left = includedDisk roundabout barePage := closed_run.1
  have hfirst : ∀ p ∈ includingLookups d,
      ¬ Touched d (includedDisk roundabout barePage) s (p.normal []) := by decide +kernel
  have hsecond : ∀ p ∈ includingLookups (includedDisk roundabout barePage),
      ¬ Touched d (includedDisk roundabout barePage) s (p.normal []) := by decide +kernel
  refine ⟨hd, Disk.wellFormed_of_entries (by decide), by decide +kernel, by decide, closed_run.2,
    fun p hp => ?_, fun p hp => ?_, ?_, ?_, ?_, ?_⟩
  · rw [hleft]
    exact hfirst p (readsOne_closed.looksUp hd hp)
  · rw [hleft] at hp ⊢
    exact hsecond p (readsOne_opened.looksUp (by decide) hp)
  · rw [show (run d s).warnings = _ from readsOne_closed.warnings]
    decide +kernel
  · rw [hleft]
    exact opened_run.2
  · rw [hleft, show (run (includedDisk roundabout barePage) s).warnings = _ from
      readsOne_opened.warnings]
    decide +kernel
  · rw [hleft, opened_run.1]
    decide +kernel

end Publish

end Sourcebook
