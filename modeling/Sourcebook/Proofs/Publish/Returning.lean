-- Runs that return pages: what they have written, and what their changes are.
import Mathlib
import Sourcebook.Proofs.Book.Order
import Sourcebook.Proofs.Disk.Paths
import Sourcebook.Proofs.Disk.Standing
import Sourcebook.Proofs.Publish.Changes

namespace Sourcebook

namespace Publish

variable {d d' : Disk} {s : Settings} {l : Location}

/-! ## The directory of the pages -/

theorem normal_names {p : Path} {n : String} (h : n ∈ p.normal []) : n ∈ p.parts ∧ n ≠ ".." := by
  rw [Path.normal_eq] at h
  exact Location.mem_walk_nil h

theorem hasNull_normal {p : Path} (h : p.hasNull = false) :
    (Path.ofLocation (p.normal [])).hasNull = false := by
  unfold Path.hasNull at h ⊢
  rw [List.any_eq_false] at h ⊢
  exact fun n hn => h n (normal_names hn).1

/-- A place that stands is found by the path that spells it, or its name is too long. -/
theorem find?_of_stands (hw : d.WellFormed) {p : Path} (hnull : p.hasNull = false) {e : Entry}
    (he : d.get? (p.normal []) = some e) :
    d.find? (Path.ofLocation (p.normal [])) ≠ .ok none := by
  intro hfind
  have hfollow : d.follow [] (p.normal []) = .ok ([] ++ p.normal []) ∨
      d.follow [] (p.normal []) = .error .tooLong :=
    Disk.follow_of_stands (fun h => (normal_names h).2 rfl) fun k _ hk hne => hw.above he hk hne
  unfold Disk.find? Disk.locate at hfind
  rw [hasNull_normal hnull, show (Path.ofLocation (p.normal [])).parts = p.normal [] from rfl] at hfind
  simp only [Bool.false_eq_true, if_false] at hfind
  split at hfind
  · next k hk =>
    split at hk
    · cases hk
    · rcases hfollow with h | h
      · rw [h] at hk
        cases hk
        rw [List.nil_append, he] at hfind
        cases hfind
      · rw [h] at hk
        cases hk
  · cases hfind
  · next k hne hk =>
    split at hk
    · cases hk
      exact hne rfl
    · rcases hfollow with h | h
      · rw [h] at hk
        cases hk
      · rw [h] at hk
        cases hk
        exact hne rfl

theorem clearing_cases (d : Disk) (s : Settings) :
    clearing d s = [] ∨ clearing d s = [.cleared (s.outDir.normal [])] := by
  unfold clearing
  split
  · exact Or.inr rfl
  · exact Or.inl rfl

/-- A directory of the pages with a file below it is there to be cleared. -/
theorem clearing_of_below (hw : d.WellFormed) {e : Entry} (hl : d.get? l = some e)
    (hout : s.outDir.normal [] <+: l) (hp : prepare d s = .ok d') :
    clearing d s = [.cleared (s.outDir.normal [])] := by
  have hstands : ∃ found, d.get? (s.outDir.normal []) = some found := by
    by_cases he : s.outDir.normal [] = l
    · exact ⟨e, by rw [he, hl]⟩
    · exact ⟨.directory, hw.above hl hout he⟩
  obtain ⟨found, hfound⟩ := hstands
  rcases clear_cases d s with ⟨e, he⟩ | ⟨a, ⟨-, hclearing, -⟩ | ⟨hfind, -, -⟩, hnull, -⟩
  · rw [Disk.outcome_eq_ok.mp hp] at he
    cases he
  · exact hclearing
  · exact absurd hfind (find?_of_stands hw hnull hfound)

/-! ## What was written -/

theorem writing_of_ok {p : Path} {text : String} (h : writeText d p text = (d', .ok ())) :
    writing d p text = [.wrote (p.normal []) text] := by
  unfold writing
  rw [h]

/-- Where nothing fails, every text was written at its path. -/
theorem writeTexts_returns {texts : List (Path × String)} {written : List Path}
    (h : writeTexts d texts = (d', written, none)) :
    written = texts.map (·.1) ∧ writings d texts = texts.map fun x => .wrote (x.1.normal []) x.2 := by
  induction texts generalizing d written with
  | nil =>
    cases h
    exact ⟨rfl, rfl⟩
  | cons x rest ih =>
    obtain ⟨p, text⟩ := x
    simp only [writeTexts] at h
    rcases hw : writeText d p text with ⟨d1, e | _⟩
    · rw [hw] at h
      cases h
    · rw [hw] at h
      simp only at h
      rcases hr : writeTexts d1 rest with ⟨d2, more, stop⟩
      rw [hr] at h
      cases h
      obtain ⟨hmore, hchanges⟩ := ih hr
      refine ⟨by rw [hmore, List.map_cons], ?_⟩
      simp only [writings, writing_of_ok hw, hw, hchanges, List.map_cons, List.singleton_append]

/-- What a run that returned pages went through. -/
structure Returns (d : Disk) (s : Settings) (written : List Path) (desk : Desk) (tree : Tree)
    (pages : List ReferencePage) : Prop where
  book : ∃ files, Book.ofProject d s = .ok (files, desk, none)
  chapters : desk.book.ordered ≠ []
  arranged : (treeOf d s desk.book.ordered).1 = .ok (tree, pages)
  ready : ∃ ready, prepare d s = .ok ready
  written : written = (finished tree desk.book.ordered).map (pageOf s) ++ [s.summaryFile]
  changes : changes d s = clearing d s ++
    ((finished tree desk.book.ordered).map (fun c => .wrote ((pageOf s c).normal []) c.render) ++
      [.wrote (s.summaryFile.normal []) (Outline.page s tree (pagesApart s pages))])

theorem writeAll_returns {tree : Tree} {pages : List ReferencePage} {chapters : List Chapter}
    {written : List Path} (h : (writeAll d s tree pages chapters).2.1 = .ok written) :
    ∃ ready, prepare d s = .ok ready ∧
      written = (finished tree chapters).map (pageOf s) ++ [s.summaryFile] ∧
      writingTree ready s tree pages chapters =
        (finished tree chapters).map (fun c => .wrote ((pageOf s c).normal []) c.render) ++
          [.wrote (s.summaryFile.normal []) (Outline.page s tree (pagesApart s pages))] := by
  unfold writeAll at h
  rcases hclear : clear d s with ⟨ready, _ | e⟩
  · rw [hclear] at h
    refine ⟨ready, Disk.outcome_eq_ok.mpr hclear, ?_⟩
    unfold writingTree
    simp only at h ⊢
    rcases hpages : writeTexts ready (pageTexts s (finished tree chapters)) with ⟨d1, first, _ | e⟩
    · rw [hpages] at h
      obtain ⟨hfirst, hchanges⟩ := writeTexts_returns hpages
      simp only at h ⊢
      rcases hlast : writeText d1 s.summaryFile (Outline.page s tree (pagesApart s pages)) with
        ⟨d2, e | _⟩
      · rw [hlast] at h
        cases h
      · rw [hlast] at h
        cases h
        rw [hchanges, writing_of_ok hlast, hfirst]
        unfold pageTexts
        rw [List.map_map, List.map_map]
        exact ⟨rfl, rfl⟩
    · rw [hpages] at h
      cases h
  · rw [hclear] at h
    cases h

/-- A run that does not fail has no chapters and writes nothing, or it returns pages. -/
theorem run_cases {written : List Path} (hr : (run d s).result = .ok written) :
    ∃ files desk, Book.ofProject d s = .ok (files, desk, none) ∧
      (desk.book.ordered = [] ∧ written = [] ∨
        ∃ tree pages, Returns d s written desk tree pages) := by
  unfold run at hr
  generalize hbook : Book.ofProject d s = project at hr
  obtain e | ⟨files, desk, _ | e⟩ := project
  · cases hr
  · refine ⟨files, desk, rfl, ?_⟩
    simp only at hr
    by_cases hchapters : desk.book.ordered.isEmpty = true
    · rw [if_pos hchapters] at hr
      cases hr
      exact Or.inl ⟨List.isEmpty_iff.mp hchapters, rfl⟩
    · rw [if_neg hchapters] at hr
      generalize htree : treeOf d s desk.book.ordered = arranged at hr
      obtain ⟨t | ⟨tree, pages⟩, notices⟩ := arranged
      · cases hr
      · obtain ⟨ready, hp, hwritten, hchanges⟩ := writeAll_returns hr
        refine Or.inr ⟨tree, pages, ⟨files, hbook⟩, by simpa using hchapters, by rw [htree],
          ⟨ready, hp⟩, hwritten, ?_⟩
        unfold changes
        rw [hbook]
        simp only [if_neg hchapters, htree, hp, hchanges]
  · cases hr

theorem returns_of_written {written : List Path} (hr : (run d s).result = .ok written)
    (hne : written ≠ []) : ∃ desk tree pages, Returns d s written desk tree pages := by
  obtain ⟨files, desk, -, ⟨-, hnil⟩ | ⟨tree, pages, h⟩⟩ := run_cases hr
  · exact absurd hnil hne
  · exact ⟨desk, tree, pages, h⟩

/-- A run whose files declare their chapters by rising priority: what it gives and what it leaves
comes from the tree of these chapters. -/
theorem run_of_rising {files : List Location} (hfiles : Discovery.files d s = .ok files)
    {desk : Desk} (hread : Desk.readSources d s ⟨.empty, some files⟩ files = (desk, none))
    (hrising : desk.book.chapters.Pairwise (·.priority ≤ ·.priority))
    (hne : desk.book.chapters ≠ []) :
    ((run d s).disk, (run d s).result) =
      match (treeOf d s desk.book.chapters).1 with
      | .error t => (d, .error (.trouble t))
      | .ok (tree, pages) =>
        let w := writeAll d s tree pages desk.book.chapters
        (w.1, w.2.1) := by
  have hbook := Book.ofProject_of_read hfiles hread
  unfold run
  rw [hbook]
  simp only [Book.ordered_of_rising hrising, List.isEmpty_iff, if_neg hne]
  rcases treeOf d s desk.book.chapters with ⟨t | ⟨tree, pages⟩, notices⟩
  · rfl
  · rfl

/-! ## The last change -/

theorem lastMeeting_eq_none {cs : List Change} :
    lastMeeting l cs = none ↔ ∀ c ∈ cs, ¬ c.meets l := by
  unfold lastMeeting
  rw [List.getLast?_eq_none_iff, List.filter_eq_nil_iff]

theorem mem_of_lastMeeting {cs : List Change} {c : Change} (h : lastMeeting l cs = some c) :
    c ∈ cs ∧ c.meets l = true :=
  List.mem_filter.mp (List.mem_of_getLast? h)

theorem lastMeeting_append (l : Location) (cs ds : List Change) :
    lastMeeting l (cs ++ ds) = (lastMeeting l ds).or (lastMeeting l cs) := by
  unfold lastMeeting
  rw [List.filter_append, List.getLast?_append]

/-- Of texts that go to different places one goes to each of them. -/
theorem lastMeeting_writes {α : Type} {place : α → Location} {text : α → String} {as : List α}
    (h : (as.map place).Nodup) {a : α} (ha : a ∈ as) :
    lastMeeting (place a) (as.map fun a => .wrote (place a) (text a)) =
      some (.wrote (place a) (text a)) := by
  have hnone : ∀ bs : List α, place a ∉ bs.map place →
      lastMeeting (place a) (bs.map fun a => .wrote (place a) (text a)) = none := by
    intro bs hbs
    rw [lastMeeting_eq_none]
    intro c hc hmeets
    obtain ⟨b, hb, rfl⟩ := List.mem_map.mp hc
    exact hbs (Change.meets_wrote.mp hmeets ▸ List.mem_map_of_mem hb)
  obtain ⟨before, after, rfl⟩ := List.append_of_mem ha
  rw [List.map_append, List.map_cons, List.perm_middle.nodup_iff, List.nodup_cons,
    List.mem_append, not_or] at h
  rw [List.map_append, List.map_cons, ← List.singleton_append, lastMeeting_append,
    lastMeeting_append, hnone after h.1.2]
  simp [lastMeeting, Change.meets]

end Publish

end Sourcebook
