-- What a run does to the files that it reads. A source below the directory of the pages is
-- cleared with it, and a source at the place of the table of contents is written over; every
-- other source keeps its bytes.
import Mathlib
import Sourcebook.Proofs.Publish.Pages
import Sourcebook.Proofs.Publish.Returning

namespace Sourcebook

namespace Publish

variable {d d' : Disk} {s : Settings} {l : Location}

/-! ## The places of the changes -/

theorem mem_writing {p : Path} {text : String} {c : Change} (h : c ∈ writing d p text) :
    c = .wrote (p.normal []) text := by
  unfold writing at h
  split at h
  · exact List.mem_singleton.mp h
  · cases h

theorem mem_writings {texts : List (Path × String)} {c : Change} (h : c ∈ writings d texts) :
    ∃ x ∈ texts, c = .wrote (x.1.normal []) x.2 := by
  induction texts generalizing d with
  | nil => cases h
  | cons x rest ih =>
    obtain ⟨p, text⟩ := x
    simp only [writings] at h
    rcases List.mem_append.mp h with h | h
    · exact ⟨(p, text), List.mem_cons_self, mem_writing h⟩
    · split at h
      · cases h
      · obtain ⟨x, hx, rfl⟩ := ih h
        exact ⟨x, List.mem_cons_of_mem _ hx, rfl⟩

/-- A run clears the directory of the pages, writes below it, and writes the table of contents. -/
theorem mem_changes (hd : d.Named) (hs : s.root.Named) {c : Change} (h : c ∈ changes d s) :
    c = .cleared (s.outDir.normal []) ∨
      ∃ k text, c = .wrote k text ∧ (s.outDir.normal [] <+: k ∨ k = s.summaryFile.normal []) := by
  unfold changes at h
  split at h
  · next files desk hbook =>
    have hfresh : ∀ e ∈ desk.book.ordered, e.Fresh := fun e he =>
      Book.ofProject_fresh hd hs hbook e (by simpa [Book.ordered] using he)
    dsimp only at h
    split at h
    · cases h
    · split at h
      · next tree pages ready htree _ =>
        have hpaged := finished_paged (treeOf_paged hd hfresh htree) hfresh
        rcases List.mem_append.mp h with h | h
        · unfold clearing at h
          split at h
          · exact Or.inl (List.mem_singleton.mp h)
          · cases h
        · unfold writingTree at h
          dsimp only at h
          rcases List.mem_append.mp h with h | h
          · obtain ⟨x, hx, rfl⟩ := mem_writings h
            obtain ⟨e, he, rfl⟩ := List.mem_map.mp hx
            exact Or.inr ⟨_, _, rfl, Or.inl (pageOf_below s (hpaged e he))⟩
          · split at h
            · exact Or.inr ⟨_, _, mem_writing h, Or.inr rfl⟩
            · cases h
      · cases h
  · cases h

/-! ## Runs that return -/

/-- A run that returns pages has cleared their directory, and wrote at the places that it
returns. -/
theorem changes_of_written (hw : d.WellFormed) {e : Entry} (hl : d.get? l = some e)
    (hout : s.outDir.normal [] <+: l) {written : List Path}
    (hr : (run d s).result = .ok written) (hne : written ≠ []) :
    .cleared (s.outDir.normal []) ∈ changes d s ∧
      ∀ k text, .wrote k text ∈ changes d s → k ∈ written.map (Path.normal []) := by
  obtain ⟨desk, tree, pages, h⟩ := returns_of_written hr hne
  obtain ⟨ready, hp⟩ := h.ready
  rw [h.changes, h.written, clearing_of_below hw hl hout hp]
  refine ⟨by simp, fun k text hmem => ?_⟩
  rw [List.mem_append, List.mem_singleton, List.mem_append, List.mem_map, List.mem_singleton] at hmem
  rw [List.map_append, List.mem_append, List.map_map, List.mem_map, List.map_singleton,
    List.mem_singleton]
  rcases hmem with hmem | ⟨c, hc, he⟩ | he
  · cases hmem
  · cases he
    exact Or.inl ⟨c, hc, rfl⟩
  · cases he
    exact Or.inr rfl

/-! ## The last change -/

/-- A file keeps its bytes when no change meets it, or when the last one that does writes them
back. -/
theorem fileAt_run_iff {bytes : List UInt8} (h : d.fileAt l = some bytes) :
    (run d s).disk.fileAt l = some bytes ↔
      (∀ c ∈ changes d s, ¬ c.meets l) ∨
        ∃ text, lastMeeting l (changes d s) = some (.wrote l text) ∧ Text.encode text = bytes := by
  rw [fileAt_run_eq, ← lastMeeting_eq_none]
  cases hlast : lastMeeting l (changes d s) with
  | none => simp [h]
  | some c =>
    cases c with
    | cleared dir => simp [Change.leaves]
    | wrote k text =>
      obtain rfl := Change.meets_wrote.mp (mem_of_lastMeeting hlast).2
      simp [Change.leaves]

/-- What a run does to a source. It keeps its bytes, whether the run returns or fails, exactly when
no change of the run meets it or the last one that does writes the same bytes. Outside the
directory of the pages only the table of contents can meet it. Inside, a run that returns pages
leaves nothing but what it wrote. -/
theorem sources_outlast_the_run_unless_it_meets_them (hd : d.Named) (hw : d.WellFormed)
    (hs : s.root.Named) {files : List Location} (hf : Discovery.files d s = .ok files)
    (hl : l ∈ files) :
    ∃ bytes, d.fileAt l = some bytes ∧
      ((run d s).disk.fileAt l = some bytes ↔
        (∀ c ∈ changes d s, ¬ c.meets l) ∨
          ∃ text, lastMeeting l (changes d s) = some (.wrote l text) ∧ Text.encode text = bytes) ∧
      (¬ s.outDir.normal [] <+: l → l ≠ s.summaryFile.normal [] →
        (run d s).disk.fileAt l = some bytes) ∧
      (∀ written, (run d s).result = .ok written → written ≠ [] → s.outDir.normal [] <+: l →
        l ∉ written.map (Path.normal []) → (run d s).disk.fileAt l = none) := by
  obtain ⟨-, bytes, hbytes⟩ := Discovery.mem_files hd hs hf hl
  have hiff := fileAt_run_iff (s := s) hbytes
  refine ⟨bytes, hbytes, hiff, fun hout hsummary => hiff.mpr (Or.inl fun c hc => ?_), ?_⟩
  · rcases mem_changes hd hs hc with rfl | ⟨k, text, rfl, hk⟩
    · rw [Change.meets_cleared]
      exact hout
    · rw [Change.meets_wrote]
      rintro rfl
      rcases hk with hk | hk
      · exact hout hk
      · exact hsummary hk
  · intro written hr hne hout hlost
    obtain ⟨hcleared, hwrote⟩ :=
      changes_of_written hw (Disk.fileAt_eq_some.mp hbytes) hout hr hne
    rw [fileAt_run_eq]
    cases hlast : lastMeeting l (changes d s) with
    | none => exact absurd (Change.meets_cleared.mpr hout) (lastMeeting_eq_none.mp hlast _ hcleared)
    | some c =>
      obtain ⟨hmem, hmeets⟩ := mem_of_lastMeeting hlast
      cases c with
      | cleared dir => rfl
      | wrote k text =>
        obtain rfl := Change.meets_wrote.mp hmeets
        exact absurd (hwrote _ _ hmem) hlost

/-- A project with one annotated file. -/
def sourceDisk : Disk :=
  ⟨[(["p"], .directory), (["p", "test"], .directory),
    (["p", "test", "a.ts"], .file (Text.encode "/// @chapter: a \"A\"\n"))]⟩

theorem an_annotated_file_outlasts_the_run :
    sourceDisk.Named ∧ sourceDisk.WellFormed ∧ Location.Named ["p"] ∧
    Discovery.files sourceDisk (Settings.ofRoot ["p"]) = .ok [["p", "test", "a.ts"]] ∧
    (run sourceDisk (Settings.ofRoot ["p"])).disk.fileAt ["p", "test", "a.ts"] =
      sourceDisk.fileAt ["p", "test", "a.ts"] := by
  have hd : sourceDisk.Named := by decide
  have hw : sourceDisk.WellFormed := Disk.wellFormed_of_entries (by decide)
  have hs : Location.Named ["p"] := by decide
  have hf : Discovery.files sourceDisk (Settings.ofRoot ["p"]) = .ok [["p", "test", "a.ts"]] := by
    decide +kernel
  obtain ⟨bytes, hbytes, -, houtside, -⟩ :=
    sources_outlast_the_run_unless_it_meets_them hd hw hs hf (List.mem_singleton.mpr rfl)
  refine ⟨hd, hw, hs, hf, ?_⟩
  rw [hbytes]
  exact houtside (by decide) (by decide)

/-- The directory of the pages may hold sources, and the table of contents may stand where one
does. Then the run returns, and the source is gone. -/
theorem a_run_can_take_its_source_away :
    let clearing := { Settings.ofRoot ["p"] with outDir := Settings.placeIn ["p"] "test" }
    let overwriting := { Settings.ofRoot ["p"] with summaryFile := Settings.placeIn ["p"] "test/a.ts" }
    Discovery.files sourceDisk clearing = .ok [["p", "test", "a.ts"]] ∧
    (run sourceDisk clearing).result =
      .ok [⟨.single, ["p", "test", "a.md"]⟩, ⟨.single, ["p", "docs", "SUMMARY.md"]⟩] ∧
    (run sourceDisk clearing).disk.fileAt ["p", "test", "a.ts"] = none ∧
    Discovery.files sourceDisk overwriting = .ok [["p", "test", "a.ts"]] ∧
    (run sourceDisk overwriting).disk.fileAt ["p", "test", "a.ts"] ≠
      sourceDisk.fileAt ["p", "test", "a.ts"] := by
  decide +kernel

end Publish

end Sourcebook
