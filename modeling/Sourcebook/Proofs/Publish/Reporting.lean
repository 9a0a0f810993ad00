-- What a run reports of what is remarked in its course. Once all files are read nothing that is
-- remarked gets lost, however the run ends. A reading that breaks off takes its warnings with it.
import Mathlib
import Sourcebook.Proofs.Book.Remarks
import Sourcebook.Proofs.Contents.Remarks
import Sourcebook.Proofs.Publish.Frame

namespace Sourcebook

def LogLine.warning? : LogLine → Option String
  | .warning text => some text
  | _ => none

/-- The warnings that the log of a run shows. -/
def Run.logged (r : Run) : List String := r.log.filterMap LogLine.warning?

/-- The reading of the files was broken off. -/
def Run.BrokenOff (r : Run) : Prop := ∃ e, r.result = .error (.scan e)

namespace Publish

variable {d d' : Disk} {s : Settings} {chapters : List Chapter}

/-! ## What is remarked -/

/-- What is remarked on the tree: first on the reference pages, then folder by folder. -/
def treeRemarks (d : Disk) (s : Settings) (chapters : List Chapter) : List Notice :=
  match ReferencePage.collect d s.apiDir with
  | .error _ => []
  | .ok (pages, warnings) => warnings.map .warning ++ (planted s chapters pages).remarks d

/-- What is remarked in the course of a run. A tree is made when all files were read and there are
chapters. -/
def remarks (d : Disk) (s : Settings) : List Notice :=
  Book.remarks d s ++
    match Book.ofProject d s with
    | .ok (_, desk, none) => if desk.book.ordered.isEmpty then [] else treeRemarks d s desk.book.ordered
    | _ => []

theorem treeOf_notices : (treeOf d s chapters).2 = treeRemarks d s chapters := by
  unfold treeOf treeRemarks
  cases ReferencePage.collect d s.apiDir with
  | error t => rfl
  | ok found =>
    obtain ⟨pages, warnings⟩ := found
    dsimp only
    rw [← planted_eq s chapters pages, Tree.arrange_notices]

/-! ## How a run ends -/

theorem clear_error {e : RunError} (h : clear d s = (d', some e)) :
    e = .nullInPath ∨ ∃ text, e = .output text := by
  unfold clear at h
  split at h
  · cases h
    exact Or.inl rfl
  · right
    dsimp only at h
    split at h
    · cases h
      exact ⟨_, rfl⟩
    · -- Whatever stood there, the directory is made again.
      have hremake : ∀ a : Disk, ((a.layDirectories (Path.ofLocation (s.outDir.normal []))).1,
          (a.layDirectories (Path.ofLocation (s.outDir.normal []))).2.map
            (unprepared (s.outDir.normal []))) = (d', some e) → ∃ text, e = .output text := by
        intro a ha
        obtain ⟨t, -, rfl⟩ := Option.map_eq_some_iff.mp (Prod.mk.inj ha).2
        exact ⟨_, rfl⟩
      split at h
      · cases h
        exact ⟨_, rfl⟩
      · cases h
        exact ⟨_, rfl⟩
      · exact hremake _ h
      · exact hremake _ h

/-- Writing gives the pages and the table of contents, or fails in a way of its own. -/
theorem writeAll_result (d : Disk) (s : Settings) (tree : Tree) (pages : List ReferencePage)
    (chapters : List Chapter) :
    (∃ written, written ≠ [] ∧ (writeAll d s tree pages chapters).2.1 = .ok written) ∨
      ∃ e, (∀ x, e ≠ .scan x) ∧ (writeAll d s tree pages chapters).2.1 = .error e := by
  have hown : ∀ {e : RunError}, RunError.OfWriting e → ∀ x, e ≠ .scan x := by
    rintro e (rfl | ⟨t, rfl⟩) x hx <;> cases hx
  unfold writeAll
  rcases hclear : clear d s with ⟨ready, _ | e⟩
  · dsimp only
    rcases hpages : writeTexts ready (pageTexts s (finished tree chapters)) with ⟨d1, first, _ | e⟩
    · dsimp only
      rcases hlast : writeText d1 s.summaryFile (Outline.page s tree (pagesApart s pages)) with
        ⟨d2, e | _⟩
      · exact Or.inr ⟨e, hown (writeText_error hlast), rfl⟩
      · exact Or.inl ⟨_, List.append_ne_nil_of_right_ne_nil _ (List.cons_ne_nil _ _), rfl⟩
    · exact Or.inr ⟨e, hown (writeTexts_error hpages), rfl⟩
  · refine Or.inr ⟨e, fun x hx => ?_, rfl⟩
    rcases clear_error hclear with rfl | ⟨text, rfl⟩ <;> cases hx

theorem writeAll_logged (d : Disk) (s : Settings) (tree : Tree) (pages : List ReferencePage)
    (chapters : List Chapter) :
    (writeAll d s tree pages chapters).2.2.filterMap LogLine.warning? = [] := by
  have hpages : ∀ written : List Path, (written.map generated).filterMap LogLine.warning? = [] := by
    intro written
    rw [List.filterMap_map, List.filterMap_eq_nil_iff]
    exact fun _ _ => rfl
  unfold writeAll
  rcases clear d s with ⟨ready, _ | e⟩
  · dsimp only
    rcases writeTexts ready (pageTexts s (finished tree chapters)) with ⟨d1, first, _ | e⟩
    · dsimp only
      rcases writeText d1 s.summaryFile (Outline.page s tree (pagesApart s pages)) with ⟨d2, e | _⟩
      · exact hpages first
      · rw [List.filterMap_append, hpages]
        rfl
    · exact hpages first
  · rfl

/-! ## What is reported -/

/-- The log begins with the count of the files and what was remarked in them. -/
theorem logged_read (count : String) (ns : List Notice) (more : List LogLine) :
    (LogLine.progress count :: (ns.map Notice.log ++ more)).filterMap LogLine.warning? =
      ns.filterMap Notice.warning? ++ more.filterMap LogLine.warning? := by
  rw [List.filterMap_cons_none rfl, List.filterMap_append, List.filterMap_map]
  congr 2
  funext n
  cases n <;> rfl

/-- Where all files were read, the run goes on to a result of its own, and keeps every remark. -/
theorem run_read {files : List Location} {desk : Desk}
    (hbook : Book.ofProject d s = .ok (files, desk, none)) :
    (∀ e, (run d s).result ≠ .error (.scan e)) ∧
      (run d s).warnings = (remarks d s).filterMap Notice.warning? ∧
      (run d s).logged = (run d s).warnings ++
        if (run d s).result = .ok [] then [noChapters] else [] := by
  have hnotices := Book.ofProject_notices hbook
  have hlines : ∀ ns : List Notice,
      (ns.map Notice.log).filterMap LogLine.warning? = ns.filterMap Notice.warning? := by
    intro ns
    have h := logged_read "" ns []
    rwa [List.append_nil, List.filterMap_nil, List.append_nil, List.filterMap_cons_none rfl] at h
  unfold remarks Run.logged run
  simp only [hbook, Book.warnings, hnotices]
  by_cases hempty : desk.book.ordered.isEmpty = true
  · simp only [hempty, if_true, List.cons_append, logged_read, List.append_nil]
    exact ⟨fun e he => (nomatch he), trivial, rfl⟩
  · simp only [hempty, Bool.false_eq_true, if_false, treeOf_notices, List.cons_append,
      List.append_assoc, logged_read, List.filterMap_append, hlines]
    cases (treeOf d s desk.book.ordered).1 with
    | error t => simp
    | ok found =>
      obtain ⟨tree, pages⟩ := found
      rcases writeAll_result d s tree pages desk.book.ordered with
        ⟨written, hne, hresult⟩ | ⟨e, hscan, hresult⟩
      · simp [hresult, hne, writeAll_logged]
      · simp [hresult, hscan, writeAll_logged]

/-- A run reports all that is remarked in its course, file after file and then folder after folder,
also when it fails later or finds no chapters. Only when the reading of the files is broken off it
reports nothing, though the log shows what was remarked till then. -/
theorem warnings_are_lost_only_with_the_reading (d : Disk) (s : Settings) :
    let remarked := (remarks d s).filterMap Notice.warning?
    ((run d s).BrokenOff ∧ (run d s).warnings = [] ∨
      ¬ (run d s).BrokenOff ∧ (run d s).warnings = remarked) ∧
    (run d s).logged = remarked ++ if (run d s).result = .ok [] then [noChapters] else [] := by
  intro remarked
  rcases hbook : Book.ofProject d s with e | ⟨files, desk, _ | e⟩
  · have hrun : run d s = ⟨d, .error (.glob e), [], []⟩ := by
      unfold run
      rw [hbook]
    have hnone : remarked = [] := by
      simp [remarked, remarks, hbook, Book.remarks_of_error hbook]
    rw [hrun, hnone]
    refine ⟨Or.inr ⟨?_, rfl⟩, rfl⟩
    rintro ⟨e', h⟩
    cases h
  · obtain ⟨hscan, hwarnings, hlogged⟩ := run_read hbook
    refine ⟨Or.inr ⟨?_, hwarnings⟩, hlogged.trans (by rw [hwarnings])⟩
    rintro ⟨e, h⟩
    exact hscan e h
  · have hrun : run d s = ⟨d, .error (.scan e), [], .progress (counted files.length "Found "
        " files to scan.") :: desk.book.notices.map Notice.log⟩ := by
      unfold run
      rw [hbook]
    have hremarked : remarked = desk.book.notices.filterMap Notice.warning? := by
      simp [remarked, remarks, hbook, Book.ofProject_notices hbook]
    have hlogged := logged_read (counted files.length "Found " " files to scan.") desk.book.notices []
    rw [List.append_nil] at hlogged
    rw [hrun, hremarked]
    exact ⟨Or.inl ⟨⟨e, rfl⟩, rfl⟩, hlogged⟩

/-- Two titles for one chapter, and before them a snippet that ends without a start. -/
def clashingDisk : Disk :=
  ⟨[(["p"], .directory), (["p", "test"], .directory),
    (["p", "test", "a.ts"], .file (Text.encode "/// @chapter: a \"A\"\n// @end: x\n")),
    (["p", "test", "b.ts"], .file (Text.encode "/// @chapter: a \"B\"\n"))]⟩

def clashingFiles : List Location := [["p", "test", "a.ts"], ["p", "test", "b.ts"]]

theorem a_conflict_takes_the_warnings_before_it :
    let s := (Settings.ofRoot ["p"]).strictly
    (run clashingDisk s).BrokenOff ∧ (run clashingDisk s).warnings = [] ∧
      (remarks clashingDisk s).filterMap Notice.warning? =
        ["/p/test/a.ts:2: '@end: x' with no open snippet; ignored"] := by
  intro s
  let read := Desk.readSources clashingDisk s ⟨.empty, some clashingFiles⟩ clashingFiles
  let clash := "/p/test/b.ts:1: chapter 'a' already declared as 'A' in /p/test/a.ts; keeping the first"
  have hfiles : Discovery.files clashingDisk s = .ok clashingFiles :=
    Discovery.files_of_rising [clashingFiles, []] (by decide +kernel) (by decide +kernel)
  have hstop : read.2 = some (.conflict clash) := by decide +kernel
  have hread : read = (read.1, some (.conflict clash)) := Prod.ext rfl hstop
  have hbook := Book.ofProject_of_read hfiles hread
  have hremarks : remarks clashingDisk s = read.1.book.notices := by
    simp only [remarks, hbook, Book.ofProject_notices hbook, List.append_nil]
  rw [hremarks]
  unfold run Run.BrokenOff
  rw [hbook]
  exact ⟨⟨_, rfl⟩, rfl, by decide +kernel⟩

end Publish

end Sourcebook
