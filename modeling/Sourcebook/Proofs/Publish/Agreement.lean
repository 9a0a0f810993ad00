-- The laws of a run that returns pages: the pages that stand, the list of what was written and the
-- table of contents say the same of every chapter.
import Mathlib
import Sourcebook.Proofs.Contents.Mentioned
import Sourcebook.Proofs.Publish.Planting
import Sourcebook.Proofs.Publish.Returning

namespace Sourcebook

namespace Publish

open Book (Ranked)

variable {d : Disk} {s : Settings} {l : Location} {written : List Path} {desk : Desk} {tree : Tree}
  {pages : List ReferencePage} {chapters : List Chapter}

/-! ## The files after the run -/

theorem Returns.distinct (h : Returns d s written desk tree pages) (hd : d.Named)
    (hs : s.root.Named) : Distinct desk.book.ordered := by
  obtain ⟨files, hbook⟩ := h.book
  exact Book.ordered_distinct (Book.ofProject_distinct hd hs hbook)

theorem Returns.grown (h : Returns d s written desk tree pages) (hd : d.Named) (hs : s.root.Named) :
    Grown d s desk.book.ordered tree pages := by
  obtain ⟨files, hbook⟩ := h.book
  refine grown_of_treeOf (fun c hc => ?_) (h.distinct hd hs) h.arranged
  exact Book.ofProject_fresh hd hs hbook c (by simpa [Book.ordered] using hc)

/-- The places of the pages, as paths are written. -/
def placesOf (s : Settings) (chapters : List Chapter) : List Location :=
  chapters.map fun c => (pageOf s c).normal []

theorem Returns.places_nodup (h : Returns d s written desk tree pages) (hd : d.Named)
    (hs : s.root.Named) : (placesOf s (finished tree desk.book.ordered)).Nodup := by
  rw [(h.grown hd hs).finished]
  exact (h.grown hd hs).places_nodup (h.distinct hd hs)

/-- The table of contents is written last. -/
theorem Returns.summary (h : Returns d s written desk tree pages) :
    (run d s).disk.fileAt (s.summaryFile.normal []) =
      some (Text.encode (Outline.page s tree (pagesApart s pages))) := by
  rw [fileAt_run_eq, h.changes, ← List.append_assoc, lastMeeting_append]
  simp [lastMeeting, Change.meets, Change.leaves]

/-- A page stands as it was written, unless the table of contents took its place. -/
theorem Returns.page (h : Returns d s written desk tree pages)
    (hn : (placesOf s (finished tree desk.book.ordered)).Nodup) {c : Chapter}
    (hc : c ∈ finished tree desk.book.ordered)
    (hne : (pageOf s c).normal [] ≠ s.summaryFile.normal []) :
    (run d s).disk.fileAt ((pageOf s c).normal []) = some (Text.encode c.render) := by
  have hlast : lastMeeting ((pageOf s c).normal [])
      [.wrote (s.summaryFile.normal []) (Outline.page s tree (pagesApart s pages))] = none := by
    rw [lastMeeting_eq_none]
    intro e he hmeets
    rw [List.mem_singleton.mp he, Change.meets_wrote] at hmeets
    exact hne hmeets.symm
  rw [fileAt_run_eq, h.changes, lastMeeting_append, lastMeeting_append, hlast,
    lastMeeting_writes hn hc]
  rfl

theorem Returns.written_places (h : Returns d s written desk tree pages) :
    written.map (Path.normal []) =
      placesOf s (finished tree desk.book.ordered) ++ [s.summaryFile.normal []] := by
  rw [h.written, List.map_append, List.map_map]
  rfl

/-- Where nothing is written the clearing alone can meet a file. -/
theorem Returns.unwritten (h : Returns d s written desk tree pages)
    (hl : l ∉ written.map (Path.normal [])) :
    lastMeeting l (Publish.changes d s) = lastMeeting l (clearing d s) := by
  rw [h.written_places, List.mem_append, List.mem_singleton, not_or] at hl
  have hwrites : lastMeeting l
      ((finished tree desk.book.ordered).map (fun c => .wrote ((pageOf s c).normal []) c.render) ++
        [.wrote (s.summaryFile.normal []) (Outline.page s tree (pagesApart s pages))]) = none := by
    rw [lastMeeting_eq_none]
    intro e he hmeets
    rcases List.mem_append.mp he with he | he
    · obtain ⟨c, hc, rfl⟩ := List.mem_map.mp he
      exact hl.1 (Change.meets_wrote.mp hmeets ▸ List.mem_map_of_mem hc)
    · rw [List.mem_singleton.mp he, Change.meets_wrote] at hmeets
      exact hl.2 hmeets.symm
  rw [h.changes, lastMeeting_append, hwrites, Option.none_or]

/-- Below the directory of the pages nothing stands but what was written. -/
theorem Returns.below (h : Returns d s written desk tree pages) (hw : d.WellFormed)
    (hout : s.outDir.normal [] <+: l) (hl : l ∉ written.map (Path.normal [])) :
    (run d s).disk.fileAt l = none := by
  obtain ⟨ready, hready⟩ := h.ready
  rw [fileAt_run_eq, h.unwritten hl]
  cases hentry : d.get? l with
  | none =>
    have hfile : d.fileAt l = none := by
      unfold Disk.fileAt
      rw [hentry]
    rcases clearing_cases d s with hnone | hone
    · rw [hnone]
      exact hfile
    · rw [hone]
      simp [lastMeeting, Change.meets, hout, Change.leaves]
  | some e =>
    rw [clearing_of_below hw hentry hout hready]
    simp [lastMeeting, Change.meets, hout, Change.leaves]

theorem Returns.page_below (h : Returns d s written desk tree pages) (hd : d.Named)
    (hs : s.root.Named) {c : Chapter} (hc : c ∈ finished tree desk.book.ordered) :
    s.outDir.normal [] <+: (pageOf s c).normal [] := by
  have hgrown := h.grown hd hs
  rw [hgrown.finished] at hc
  obtain ⟨b, hb, rfl⟩ := List.mem_map.mp hc
  rw [hgrown.pageOf_settled hb]
  exact List.prefix_append _ _

/-- Where the table of contents stands elsewhere, the files below the directory of the pages are
the pages. -/
theorem Returns.files_below (h : Returns d s written desk tree pages) (hd : d.Named)
    (hw : d.WellFormed) (hs : s.root.Named)
    (hsummary : ¬ s.outDir.normal [] <+: s.summaryFile.normal []) (hl : s.outDir.normal [] <+: l)
    (bytes : List UInt8) :
    (run d s).disk.fileAt l = some bytes ↔ ∃ c ∈ finished tree desk.book.ordered,
      (pageOf s c).normal [] = l ∧ Text.encode c.render = bytes := by
  have hplaces := h.places_nodup hd hs
  have hapart : l ≠ s.summaryFile.normal [] := fun he => hsummary (he ▸ hl)
  constructor
  · intro hfile
    by_contra hnone
    have hout : l ∉ written.map (Path.normal []) := by
      rw [h.written_places, List.mem_append, List.mem_singleton]
      rintro (hmem | hmem)
      · obtain ⟨c, hc, rfl⟩ := List.mem_map.mp hmem
        rw [h.page hplaces hc hapart] at hfile
        exact hnone ⟨c, hc, rfl, Option.some.inj hfile⟩
      · exact hapart hmem
    rw [h.below hw hl hout] at hfile
    cases hfile
  · rintro ⟨c, hc, rfl, rfl⟩
    exact h.page hplaces hc hapart

theorem Returns.written_nodup (h : Returns d s written desk tree pages) (hd : d.Named)
    (hs : s.root.Named) (hsummary : ¬ s.outDir.normal [] <+: s.summaryFile.normal []) :
    (written.map (Path.normal [])).Nodup := by
  rw [h.written_places, List.nodup_append]
  refine ⟨h.places_nodup hd hs, List.nodup_singleton _, ?_⟩
  rintro k hk m hm rfl
  obtain ⟨c, hc, rfl⟩ := List.mem_map.mp hk
  exact hsummary (List.mem_singleton.mp hm ▸ h.page_below hd hs hc)

/-! ## Links to chapters -/

/-- The path that a link is followed to from the table of contents. -/
def followed (s : Settings) (link : String) : Location :=
  (Path.ofString link).normal (s.summaryFile.parent.normal [])

/-- A mention of a chapter is one line, with its title and with a link to its page. -/
theorem Grown.chapterLink (h : Grown d s chapters tree pages) (ho : s.outDir.Spelled)
    {m : Outline.Mention} (hm : m ∈ Outline.mentions [] tree.root) {id : String}
    (hi : m.item = .chapter id) :
    ∃ c ∈ Publish.finished tree chapters, c.id = id ∧ ∃ link, m.link? (.of s tree) = some link ∧
      m.entries (.of s tree) = [Outline.linkLine m.way.length c.title link] ∧
      followed s link = (pageOf s c).normal [] := by
  obtain ⟨v, f, -, hf, hitem, -⟩ := Outline.mem_mentions h.tidy hm
  obtain ⟨c, hc, rfl⟩ := h.listed hf (hi ▸ hitem)
  have hfind : (Outline.Places.of s tree).chapters.find? (·.id == c.id) =
      some (settled d s chapters pages c) := (h.stands hc).2
  rw [h.finished]
  refine ⟨_, List.mem_map_of_mem hc, settled_id d s chapters pages c, _, ?_,
    Outline.Mention.entries_chapter hi hfind, Path.link_leads (ho.join (Path.spelled_ofString _)) _⟩
  simp only [Outline.Mention.link?, hi, hfind]
  rfl

/-- Pages, the list of what was written, and the table of contents agree. The list has one page a
chapter, by priority and then as they were declared, and the table of contents at its end. Below
the directory of the pages stand these pages and no other file, each with its chapter as the tree
left it. Every line of a chapter in the table of contents has the title of the page, and its link
leads there. -/
theorem pages_and_contents_agree (hd : d.Named) (hw : d.WellFormed) (hs : s.root.Named)
    (ho : s.outDir.Spelled) (hr : (run d s).result = .ok written) (hne : written ≠ [])
    (hsummary : ¬ s.outDir.normal [] <+: s.summaryFile.normal []) :
    ∃ files desk tree pages,
      Book.ofProject d s = .ok (files, desk, none) ∧
      (treeOf d s desk.book.ordered).1 = .ok (tree, pages) ∧
      let chapters := finished tree desk.book.ordered
      let toc := Outline.mentions [] tree.root
      chapters ≠ [] ∧
      chapters = desk.book.ordered.map (settled d s desk.book.ordered pages) ∧
      Ranked desk.book.chapters desk.book.ordered ∧
      written = chapters.map (pageOf s) ++ [s.summaryFile] ∧
      (written.map (Path.normal [])).Nodup ∧
      (∀ l bytes, s.outDir.normal [] <+: l →
        ((run d s).disk.fileAt l = some bytes ↔
          ∃ c ∈ chapters, (pageOf s c).normal [] = l ∧ Text.encode c.render = bytes)) ∧
      (run d s).disk.fileAt (s.summaryFile.normal []) =
        some (Text.encode (Outline.page s tree (pagesApart s pages))) ∧
      Outline.lines s tree =
        Outline.layout false (toc.flatMap (Outline.Mention.entries (.of s tree))) ∧
      ∀ m ∈ toc, ∀ id, m.item = .chapter id → ∃ c ∈ chapters, c.id = id ∧ ∃ link,
        m.entries (.of s tree) = [Outline.linkLine m.way.length c.title link] ∧
        followed s link = (pageOf s c).normal [] := by
  obtain ⟨desk, tree, pages, h⟩ := returns_of_written hr hne
  obtain ⟨files, hbook⟩ := h.book
  have hgrown := h.grown hd hs
  have hchapters : finished tree desk.book.ordered ≠ [] := by
    unfold finished
    simpa using h.chapters
  refine ⟨files, desk, tree, pages, hbook, h.arranged, hchapters, hgrown.finished,
    desk.book.ordered_ranked,
    h.written, h.written_nodup hd hs hsummary,
    fun l bytes hl => h.files_below hd hw hs hsummary hl bytes, h.summary,
    congrArg (Outline.layout false) (Outline.ofFolder_eq _ [] tree.root),
    fun m hm id hi => ?_⟩
  obtain ⟨c, hc, hid, link, -, hentries, hlink⟩ := hgrown.chapterLink ho hm hi
  exact ⟨c, hc, hid, link, hentries, hlink⟩

/-- Two chapters: the folder at the top takes one of them up under a new title. -/
def risingDisk : Disk :=
  ⟨[(["p"], .directory), (["p", "test"], .directory),
    (["p", "test", "a.ts"], .file (Text.encode "/// @chapter: a \"A\"\n")),
    (["p", "test", "sub"], .directory),
    (["p", "test", "sub", "b.ts"], .file (Text.encode "/// @chapter: b \"B\"\n")),
    (["p", "test", "_meta.json"],
      .file (Text.encode "\x7b\"sub/b\": \"Better\", \"a\": \"A\"\x7d"))]⟩

def risingFiles : List Location := [["p", "test", "a.ts"], ["p", "test", "sub", "b.ts"]]

/-- What the run over the two chapters gives. -/
def risingPages : List Path :=
  [⟨.single, ["p", "docs", "chapters", "a.md"]⟩, ⟨.single, ["p", "docs", "chapters", "b.md"]⟩,
    ⟨.single, ["p", "docs", "SUMMARY.md"]⟩]

theorem risingDisk_result : (run risingDisk (.ofRoot ["p"])).result = .ok risingPages := by
  have hfiles : Discovery.files risingDisk (.ofRoot ["p"]) = .ok risingFiles :=
    Discovery.files_of_rising [risingFiles, []] (by decide +kernel) (by decide +kernel)
  have hread : (Desk.readSources risingDisk (.ofRoot ["p"]) ⟨.empty, some risingFiles⟩
      risingFiles).2 = none := by decide +kernel
  refine (congrArg Prod.snd (run_of_rising hfiles (Prod.ext rfl hread) (by decide +kernel)
    (by decide +kernel))).trans ?_
  decide +kernel

theorem two_pages_agree_with_their_contents :
    let s := Settings.ofRoot ["p"]
    let dir : Location := ["p", "docs", "chapters"]
    risingDisk.Named ∧ risingDisk.WellFormed ∧ s.root.Named ∧ s.outDir.Spelled ∧
    (run risingDisk s).result = .ok risingPages ∧ risingPages ≠ [] ∧
    ¬ s.outDir.normal [] <+: s.summaryFile.normal [] ∧
    ∀ l bytes, dir <+: l → (run risingDisk s).disk.fileAt l = some bytes →
      l ∈ [dir ++ ["a.md"], dir ++ ["b.md"]] := by
  intro s dir
  have hd : risingDisk.Named := by decide
  have hw : risingDisk.WellFormed := Disk.wellFormed_of_entries (by decide)
  have hs : s.root.Named := by decide
  have ho : s.outDir.Spelled := by decide
  have hr : (run risingDisk s).result = .ok risingPages := risingDisk_result
  have hne : risingPages ≠ [] := by decide
  have hsummary : ¬ s.outDir.normal [] <+: s.summaryFile.normal [] := by decide
  refine ⟨hd, hw, hs, ho, hr, hne, hsummary, fun l bytes hl hfile => ?_⟩
  obtain ⟨files, desk, tree, pages, -, -, -, -, -, hwritten, -, hfiles, -⟩ :=
    pages_and_contents_agree hd hw hs ho hr hne hsummary
  have hdir : s.outDir.normal [] = dir := by decide
  obtain ⟨c, hc, rfl, -⟩ := (hfiles l bytes (hdir ▸ hl)).mp hfile
  -- The last of the paths is the table of contents, the others are the pages.
  have hpages : risingPages.dropLast = (finished tree desk.book.ordered).map (pageOf s) := by
    rw [hwritten, List.dropLast_concat]
  have hmem := List.mem_map_of_mem (f := Path.normal []) (List.mem_map_of_mem (f := pageOf s) hc)
  rw [← hpages] at hmem
  exact hmem

end Publish

end Sourcebook
