-- What a run leaves alone. Outside of the directory of the pages it writes the table of contents,
-- makes directories that are missing above these two, and does nothing else, however it ends.
import Mathlib
import Sourcebook.Proofs.Publish.Agreement

namespace Sourcebook

namespace Publish

variable {d d' : Disk} {s : Settings} {l : Location}

/-! ## The disk outside of what each step is about -/

theorem clear_keptAt (hout : ¬ s.outDir.normal [] <+: l) :
    Disk.KeptAt l (l ∈ s.outDir.trail) d (clear d s).1 := by
  rcases clear_cases d s with ⟨e, he⟩ | ⟨a, ha, -, hne, -, d', stop, hlay, hclear⟩
  · rw [he]
    exact .refl
  · have hbefore : Disk.KeptAt l (l ∈ s.outDir.trail) d a := by
      rcases ha with ⟨-, -, rfl⟩ | ⟨-, -, rfl⟩
      · refine Or.inl ?_
        rw [Disk.get?_removeTree hne, if_neg]
        rwa [List.isPrefixOf_iff_prefix]
      · exact .refl
    have hmade := Disk.layDirectories_keptAt a (Path.ofLocation (s.outDir.normal [])) l
    rw [hlay] at hmade
    rw [hclear]
    refine hbefore.trans (hmade.mono fun hl => Path.mem_trail_of_prefix ?_)
    exact (Path.mem_trail_ofLocation fun hup => (normal_names hup).2 rfl).mp hl

theorem writeText_keptAt (d : Disk) {p : Path} (text : String) (hl : l ≠ p.normal []) :
    Disk.KeptAt l (l ∈ p.parent.trail) d (writeText d p text).1 := by
  have hmade := Disk.layDirectories_keptAt d p.parent l
  rcases writeText_cases d p text with ⟨-, h⟩ | ⟨e, -, h⟩ | ⟨-, d1, d2, hlay, hw, h⟩
  · rw [h]
    exact .refl
  · rw [h]
    exact hmade
  · rw [hlay] at hmade
    rw [h]
    refine hmade.trans (Or.inl ?_)
    rw [Disk.get?_write hw, if_neg hl]

/-- No text takes the place of a directory. -/
theorem writeText_directory (p : Path) (text : String) (hl : d.get? l = some .directory) :
    (writeText d p text).1.get? l = some .directory := by
  have hmade := (Disk.layDirectories_keptAt d p.parent l).stands hl
  rcases writeText_cases d p text with ⟨-, h⟩ | ⟨e, -, h⟩ | ⟨-, d1, d2, hlay, hw, h⟩
  · rw [h]
    exact hl
  · rw [h]
    exact hmade
  · rw [hlay] at hmade
    rw [h, Disk.get?_write hw, if_neg]
    · exact hmade
    · rintro rfl
      exact (Disk.write_eq_ok.mp hw).2.1 hmade

/-- A page is written below the directory of the pages, by the way that leads there. -/
theorem pageOf_trail {c : Chapter} (h : c.Paged) (hl : l ∈ (pageOf s c).parent.trail) :
    l ∈ s.outDir.trail ∨ s.outDir.normal [] <+: l := by
  obtain ⟨hroot, hup⟩ := pagePath_relative h
  have hin := Path.trail_subset (q := (pageOf s c).parent) (List.dropLast_prefix _) hl
  rcases (Path.mem_trail_join hroot hup).mp hin with hin | ⟨more, -, rfl⟩
  · exact Or.inl hin
  · exact Or.inr (List.prefix_append _ _)

/-! ## The whole run -/

/-- The places on the ways to the directory of the pages and to the table of contents, as these
paths are written. -/
def OnTheWay (s : Settings) (l : Location) : Prop :=
  l ∈ s.outDir.trail ∨ l ∈ s.summaryFile.parent.trail

theorem writeAll_keptAt {tree : Tree} (pages : List ReferencePage) {chapters : List Chapter}
    (hpaged : ∀ c ∈ finished tree chapters, c.Paged) (hout : ¬ s.outDir.normal [] <+: l)
    (hsummary : l ≠ s.summaryFile.normal []) :
    Disk.KeptAt l (OnTheWay s l) d (writeAll d s tree pages chapters).1 := by
  refine writeAll_keeps (P := Disk.KeptAt l (OnTheWay s l) d) ?_ ?_ ?_
  · exact (clear_keptAt hout).mono Or.inl
  · intro a c hc ha
    have hne : l ≠ (pageOf s c).normal [] := fun he => hout (he ▸ pageOf_below s (hpaged c hc))
    exact ha.trans ((writeText_keptAt a c.render hne).mono fun hl =>
      Or.inl ((pageOf_trail (hpaged c hc) hl).resolve_right hout))
  · intro a text ha
    exact ha.trans ((writeText_keptAt a text hsummary).mono Or.inr)

theorem writeAll_directory (tree : Tree) (pages : List ReferencePage) (chapters : List Chapter)
    (hout : ¬ s.outDir.normal [] <+: l) (hl : d.get? l = some .directory) :
    (writeAll d s tree pages chapters).1.get? l = some .directory :=
  writeAll_keeps (P := fun a => a.get? l = some .directory) ((clear_keptAt hout).stands hl)
    (fun _ _ _ ha => writeText_directory _ _ ha) fun _ _ ha => writeText_directory _ _ ha

/-! ## Runs that change nothing -/

/-- A run that found no chapters, whose files could not be found or whose book could not be
gathered, or that would have cleared the root of the project. -/
def Unbegun (s : Settings) (result : Except RunError (List Path)) : Prop :=
  result = .ok [] ∨ (∃ e, result = .error (.glob e)) ∨ (∃ e, result = .error (.scan e)) ∨
    result = .error (.output (refusal (s.outDir.normal [])))

theorem writeText_error {p : Path} {text : String} {e : RunError}
    (h : writeText d p text = (d', .error e)) : RunError.OfWriting e := by
  rcases writeText_cases d p text with ⟨-, hw⟩ | ⟨e', he, hw⟩ | ⟨-, d1, d2, -, -, hw⟩
  · rw [hw] at h
    cases h
    exact Or.inl rfl
  · rw [hw] at h
    cases h
    exact he
  · rw [hw] at h
    cases h

theorem writeTexts_error {texts : List (Path × String)} {written : List Path} {e : RunError}
    (h : writeTexts d texts = (d', written, some e)) : RunError.OfWriting e := by
  induction texts generalizing d written with
  | nil => cases h
  | cons x rest ih =>
    obtain ⟨p, text⟩ := x
    simp only [writeTexts] at h
    rcases hx : writeText d p text with ⟨d1, e | _⟩
    · rw [hx] at h
      cases h
      exact writeText_error hx
    · rw [hx] at h
      simp only at h
      rcases hr : writeTexts d1 rest with ⟨d2, more, stop⟩
      rw [hr] at h
      cases h
      exact ih hr

theorem not_unbegun_of_writing {e : RunError} (he : RunError.OfWriting e) :
    ¬ Unbegun s (.error e) := by
  rintro (h | ⟨g, h⟩ | ⟨x, h⟩ | h)
  all_goals
    rcases he with rfl | ⟨t, rfl⟩
    · cases h
    · cases h

theorem refusal_head (l : Location) : (refusal l).toList.head? = some 'R' := by
  unfold refusal
  rw [String.toList_append, String.toList_append]
  rfl

/-- That a directory cannot be made is told in other words than that it is not cleared. -/
theorem not_unbegun_unprepared (l : Location) (t : Trouble) :
    ¬ Unbegun s (.error (unprepared l t)) := by
  rintro (h | ⟨g, h⟩ | ⟨x, h⟩ | h)
  · cases h
  · cases h
  · cases h
  · have htext : "Cannot prepare output directory '" ++ Location.text l ++ "': " ++ t.message =
        refusal (s.outDir.normal []) := RunError.output.inj (Except.error.inj h)
    have hfirst := refusal_head (s.outDir.normal [])
    rw [← htext, String.toList_append, String.toList_append, String.toList_append] at hfirst
    cases hfirst

/-- Where a run with a tree has not begun, the directory of the pages was not cleared. -/
theorem writeAll_unbegun {tree : Tree} {pages : List ReferencePage} {chapters : List Chapter}
    (h : Unbegun s (writeAll d s tree pages chapters).2.1) :
    (writeAll d s tree pages chapters).1 = d := by
  unfold writeAll at h ⊢
  rcases hclear : clear d s with ⟨ready, _ | e⟩
  · rw [hclear] at h
    exfalso
    simp only at h
    rcases hpages : writeTexts ready (pageTexts s (finished tree chapters)) with ⟨d1, first, _ | e⟩
    · rw [hpages] at h
      simp only at h
      rcases hlast : writeText d1 s.summaryFile (Outline.page s tree (pagesApart s pages)) with
        ⟨d2, e | _⟩
      · rw [hlast] at h
        exact not_unbegun_of_writing (writeText_error hlast) h
      · rw [hlast] at h
        rcases h with h | ⟨e, h⟩ | ⟨e, h⟩ | h
        · exact List.append_ne_nil_of_right_ne_nil _ (List.cons_ne_nil _ _) (Except.ok.inj h)
        · cases h
        · cases h
        · cases h
    · rw [hpages] at h
      exact not_unbegun_of_writing (writeTexts_error hpages) h
  · rw [hclear] at h
    rcases clear_cases d s with ⟨e', he'⟩ | ⟨a, -, -, -, -, d', stop, -, hstop⟩
    · rw [he'] at hclear
      cases hclear
      rfl
    · rw [hstop] at hclear
      cases stop with
      | none => cases hclear
      | some t =>
        cases hclear
        exact absurd h (not_unbegun_unprepared _ t)

/-- The directory of the pages is not cleared where the root of the project stands in it. -/
theorem writeAll_refuses {tree : Tree} {pages : List ReferencePage} {chapters : List Chapter}
    (h : s.outDir.normal [] <+: s.root) : (writeAll d s tree pages chapters).1 = d := by
  unfold writeAll
  rcases clear_cases d s with ⟨e, he⟩ | ⟨a, -, -, -, hout, -⟩
  · rw [he]
  · exact absurd h hout

/-! ## The frame of a run -/

/-- However a run ends: what is neither in the directory of the pages nor the table of contents is
as it was, but for directories that were missing on the ways there and have been made. A directory
outside of that of the pages stays, the root of the project among them. A run without chapters, one
that finds no book and one that would have to clear the root of the project change nothing. -/
theorem a_run_changes_only_its_outputs (hd : d.Named) (hs : s.root.Named) :
    (∀ l, ¬ s.outDir.normal [] <+: l → l ≠ s.summaryFile.normal [] →
      (run d s).disk.get? l = d.get? l ∨
        OnTheWay s l ∧ d.get? l = none ∧ (run d s).disk.get? l = some .directory) ∧
    (∀ l, ¬ s.outDir.normal [] <+: l → d.get? l = some .directory →
      (run d s).disk.get? l = some .directory) ∧
    (d.get? s.root = some .directory → (run d s).disk.get? s.root = some .directory) ∧
    (Unbegun s (run d s).result ∨ s.outDir.normal [] <+: s.root → (run d s).disk = d) := by
  rcases run_stages d s with hsame | ⟨files, desk, tree, pages, hbook, htree, hdisk, hresult⟩
  · rw [hsame]
    exact ⟨fun _ _ _ => Or.inl rfl, fun _ _ h => h, id, fun _ => rfl⟩
  · have hfresh : ∀ c ∈ desk.book.ordered, c.Fresh := fun c hc =>
      Book.ofProject_fresh hd hs hbook c (by simpa [Book.ordered] using hc)
    have hpaged := finished_paged (treeOf_paged hd hfresh htree) hfresh
    have hdirectory : ∀ l, ¬ s.outDir.normal [] <+: l → d.get? l = some .directory →
        (run d s).disk.get? l = some .directory := fun l hout hl =>
      hdisk ▸ writeAll_directory tree pages _ hout hl
    refine ⟨fun l hout hsummary => hdisk ▸ writeAll_keptAt pages hpaged hout hsummary, hdirectory,
      fun hroot => ?_, fun hnot => ?_⟩
    · by_cases hout : s.outDir.normal [] <+: s.root
      · rw [hdisk, writeAll_refuses hout, hroot]
      · exact hdirectory _ hout hroot
    · rw [hdisk]
      rcases hnot with hnot | hout
      · exact writeAll_unbegun (hresult ▸ hnot)
      · exact writeAll_refuses hout

theorem a_run_leaves_the_sources_of_two_chapters :
    let s := Settings.ofRoot ["p"]
    risingDisk.Named ∧ s.root.Named ∧ (run risingDisk s).result = .ok risingPages ∧
      (run risingDisk s).disk.get? ["p", "test", "a.ts"] =
        some (.file (Text.encode "/// @chapter: a \"A\"\n")) ∧
      (run risingDisk s).disk.get? s.root = some .directory := by
  intro s
  have hd : risingDisk.Named := by decide
  have hs : s.root.Named := by decide
  obtain ⟨hkept, -, hroot, -⟩ := a_run_changes_only_its_outputs hd hs
  refine ⟨hd, hs, risingDisk_result, ?_, hroot rfl⟩
  have hsource : risingDisk.get? ["p", "test", "a.ts"] =
      some (.file (Text.encode "/// @chapter: a \"A\"\n")) := rfl
  rcases hkept ["p", "test", "a.ts"] (by decide) (by decide) with h | ⟨-, hnone, -⟩
  · rw [h, hsource]
  · rw [hsource] at hnone
    cases hnone

end Publish

end Sourcebook
