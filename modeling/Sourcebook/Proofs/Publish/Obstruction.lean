-- Pages in the way of pages. No two pages have one path, and a page keeps another one from being
-- written only where a folder of chapters has the name of that page.
import Mathlib
import Sourcebook.Proofs.Publish.Agreement
import Sourcebook.Proofs.Publish.Writing

namespace Sourcebook

namespace Publish

open Sourcebook.Tree (plot pathText segments)

variable {d : Disk} {s : Settings} {chapters : List Chapter} {tree : Tree}
  {pages : List ReferencePage} {c e : Chapter}

/-- The page of a chapter has the place of a folder on the way to the page of another one. -/
def InTheWay (c e : Chapter) : Prop :=
  segments (c.folder.getD "") ++ [c.id ++ ".md"] <+: segments (e.folder.getD "")

instance (c e : Chapter) : Decidable (InTheWay c e) := inferInstanceAs (Decidable (_ <+: _))

namespace Grown

/-- The folders that a chapter is written below. -/
theorem segments_folder (h : Grown d s chapters tree pages) (hc : c ∈ chapters) :
    segments ((settled d s chapters pages c).folder.getD "") =
      (stayOf d s chapters pages c).way := by
  rw [settled_folder, Option.getD_some]
  exact Tree.segments_pathText fun n hn => (h.page_names hc n (List.mem_append_left _ hn)).2

theorem segments_pagePath (h : Grown d s chapters tree pages) (hc : c ∈ chapters) :
    segments (Tree.pagePath (settled d s chapters pages c)) =
      segments ((settled d s chapters pages c).folder.getD "") ++ [c.id ++ ".md"] := by
  rw [h.pagePath_settled hc, h.segments_folder hc,
    Tree.segments_pathText fun n hn => (h.page_names hc n hn).2]

end Grown

/-- A chapter as a tree left it, for the way that its page is written. -/
structure Placed (s : Settings) (c : Chapter) : Prop where
  path : pageOf s c = s.outDir.join ⟨.none, segments (c.folder.getD "") ++ [c.id ++ ".md"]⟩
  page : segments (Tree.pagePath c) = segments (c.folder.getD "") ++ [c.id ++ ".md"]
  text : pathText (segments (Tree.pagePath c)) = Tree.pagePath c
  down : ".." ∉ segments (c.folder.getD "") ++ [c.id ++ ".md"]

theorem Grown.placed (h : Grown d s chapters tree pages) (hc : c ∈ Publish.finished tree chapters) :
    Placed s c := by
  rw [h.finished] at hc
  obtain ⟨b, hb, rfl⟩ := List.mem_map.mp hc
  refine ⟨?_, ?_, ?_, ?_⟩
  · rw [h.pageOf_eq hb, h.segments_folder hb, settled_id]
  · rw [h.segments_pagePath hb, settled_id]
  · rw [h.segments_pagePath hb, h.segments_folder hb, h.pagePath_settled hb]
  · rw [h.segments_folder hb, settled_id]
    exact fun hup => (h.page_names hb _ hup).1.2.2 rfl

namespace Placed

/-- The directories of the page of a chapter are those of its folders. -/
theorem mem_trail_parent (h : Placed s c) {k : Location} :
    k ∈ (pageOf s c).parent.trail ↔ k ∈ s.outDir.trail ∨
      ∃ more, more <+: segments (c.folder.getD "") ∧ k = s.outDir.normal [] ++ more := by
  have hparent : (pageOf s c).parent = s.outDir.join ⟨.none, segments (c.folder.getD "")⟩ := by
    rw [h.path, Path.join_of_relative rfl, Path.join_of_relative rfl]
    unfold Path.parent
    rw [← List.append_assoc, List.dropLast_concat]
  rw [hparent]
  exact Path.mem_trail_join rfl fun hup => h.down (List.mem_append_left _ hup)

theorem place (h : Placed s c) : (pageOf s c).normal [] =
    s.outDir.normal [] ++ (segments (c.folder.getD "") ++ [c.id ++ ".md"]) := by
  rw [h.path]
  exact Path.normal_join rfl h.down

/-- The path of one page is a proper beginning of that of another one where a folder has the name
of the page. -/
theorem inTheWay_iff (hc : Placed s c) (he : Placed s e) :
    segments (Tree.pagePath c) <+: segments (Tree.pagePath e) ∧ Tree.pagePath c ≠ Tree.pagePath e ↔
      InTheWay c e := by
  unfold InTheWay
  rw [he.page, List.prefix_concat_iff, ← he.page, ← hc.page]
  constructor
  · rintro ⟨heq | hin, hne⟩
    · exact absurd (by rw [← hc.text, heq, he.text]) hne
    · exact hin
  · intro hin
    refine ⟨Or.inr hin, fun heq => ?_⟩
    have hle := hin.length_le
    rw [heq, he.page, List.length_append, List.length_singleton] at hle
    omega

/-- Where one page can be written alone, it stands where another one needs a directory only when
it is in the way of that page. -/
theorem blocks_iff (hc : Placed s c) (he : Placed s e) (hw : Writable d (pageOf s c)) :
    (pageOf s c).normal [] ∈ (pageOf s e).parent.trail ↔ InTheWay c e := by
  have hout : (pageOf s c).normal [] ∉ s.outDir.trail := fun hin =>
    hw.apart (hc.mem_trail_parent.mpr (Or.inl hin))
  rw [he.mem_trail_parent, or_iff_right hout, hc.place]
  unfold InTheWay
  constructor
  · rintro ⟨more, hmore, heq⟩
    rwa [List.append_cancel_left heq]
  · intro hin
    exact ⟨_, hin, rfl⟩

end Placed

/-- Pages that can be written alone can be written in turn when none is in the way of another. -/
theorem writeTexts_pages_iff (hall : ∀ c ∈ chapters, Placed s c)
    (hw : ∀ c ∈ chapters, Writable d (pageOf s c)) :
    (writeTexts d (pageTexts s chapters)).2.2 = none ↔
      ∀ c ∈ chapters, ∀ e ∈ chapters, ¬ InTheWay c e := by
  have hapart : ∀ c ∈ chapters, ∀ e ∈ chapters,
      (Apart (pageOf s c) (pageOf s e) ↔ ¬ InTheWay c e ∧ ¬ InTheWay e c) := by
    intro c hc e he
    unfold Apart
    rw [(hall c hc).blocks_iff (hall e he) (hw c hc), (hall e he).blocks_iff (hall c hc) (hw e he)]
  have hmem : ∀ c ∈ chapters, (pageOf s c, c.render) ∈ pageTexts s chapters := fun c hc =>
    List.mem_map.mpr ⟨c, hc, rfl⟩
  constructor
  · intro hstop c hc e he
    have hpair : Apart (pageOf s c) (pageOf s e) :=
      apart_of_written hstop (pageOf s c, c.render) (hmem c hc) (pageOf s e, e.render) (hmem e he)
    exact ((hapart c hc e he).mp hpair).1
  · intro hnone
    rw [writeTexts_returns_iff]
    unfold pageTexts
    rw [List.pairwise_map]
    refine ⟨fun x hx => ?_, List.pairwise_of_forall_mem_list fun c hc e he => ?_⟩
    · obtain ⟨c, hc, rfl⟩ := List.mem_map.mp hx
      exact hw c hc
    · exact (hapart c hc e he).mpr ⟨hnone c hc e he, hnone e he c hc⟩

/-- The pages of a book have different paths. The path of one page is a proper beginning of that of
another one exactly where a folder of that other chapter is named as the page, which takes a source
folder of that name. Where every page can be written alone, all are written in
turn exactly when there are no such two pages. -/
theorem pages_meet_only_where_a_folder_is_named_as_a_page (hd : d.Named) (hs : s.root.Named)
    {files : List Location} {desk : Desk} (hbook : Book.ofProject d s = .ok (files, desk, none))
    (htree : (treeOf d s desk.book.ordered).1 = .ok (tree, pages)) :
    let chapters := finished tree desk.book.ordered
    (chapters.map Tree.pagePath).Nodup ∧
    (∀ c ∈ chapters, ∀ e ∈ chapters,
      (segments (Tree.pagePath c) <+: segments (Tree.pagePath e) ∧
        Tree.pagePath c ≠ Tree.pagePath e ↔ InTheWay c e) ∧
      (InTheWay c e → c.id ++ ".md" ∈ segments e.sourceDir)) ∧
    ∀ ready, (∀ c ∈ chapters, Writable ready (pageOf s c)) →
      ((writeTexts ready (pageTexts s chapters)).2.2 = none ↔
        ∀ c ∈ chapters, ∀ e ∈ chapters, ¬ InTheWay c e) := by
  intro chapters
  have hfresh : ∀ c ∈ desk.book.ordered, c.Fresh := fun c hc =>
    Book.ofProject_fresh hd hs hbook c (by simpa [Book.ordered] using hc)
  have hdistinct : Distinct desk.book.ordered :=
    Book.ordered_distinct (Book.ofProject_distinct hd hs hbook)
  have hgrown := grown_of_treeOf hfresh hdistinct htree
  have hplaced : ∀ c ∈ chapters, Placed s c := fun c hc => hgrown.placed hc
  refine ⟨?_, fun c hc e he => ⟨(hplaced c hc).inTheWay_iff (hplaced e he), fun hin => ?_⟩,
    fun ready hw => writeTexts_pages_iff hplaced hw⟩
  · have hplaces := hgrown.places_nodup hdistinct
    rw [← hgrown.finished] at hplaces
    have hpaths : (chapters.map (pageOf s)).Nodup := by
      refine List.Nodup.of_map (Path.normal []) ?_
      rw [List.map_map]
      exact hplaces
    refine List.Nodup.of_map (fun path => s.outDir.join (Path.ofString path)) ?_
    rw [List.map_map]
    exact hpaths
  · rw [show chapters = _ from hgrown.finished] at he
    obtain ⟨b, hb, rfl⟩ := List.mem_map.mp he
    have hmem := hin.subset (List.mem_append_right _ List.mem_cons_self)
    rw [hgrown.segments_folder hb] at hmem
    exact Tree.mem_plot ((Grown.way_upward d s _ pages b).subset hmem)

theorem two_pages_are_not_in_each_others_way :
    let s := Settings.ofRoot ["p"]
    risingDisk.Named ∧ s.root.Named ∧ ∃ files desk tree pages,
      Book.ofProject risingDisk s = .ok (files, desk, none) ∧
      (treeOf risingDisk s desk.book.ordered).1 = .ok (tree, pages) ∧
      finished tree desk.book.ordered ≠ [] ∧
      ((finished tree desk.book.ordered).map Tree.pagePath).Nodup := by
  intro s
  have hd : risingDisk.Named := by decide
  have hs : s.root.Named := by decide
  obtain ⟨desk, tree, pages, hr⟩ := returns_of_written risingDisk_result (by decide)
  obtain ⟨files, hbook⟩ := hr.book
  obtain ⟨hnodup, -⟩ :=
    pages_meet_only_where_a_folder_is_named_as_a_page hd hs hbook hr.arranged
  refine ⟨hd, hs, files, desk, tree, pages, hbook, hr.arranged, ?_, hnodup⟩
  unfold finished
  simpa using hr.chapters

/-! ## A folder that is named as a page -/

/-- A chapter, and beside it a folder that is named as the page of the chapter. -/
def blockedDisk : Disk :=
  ⟨[(["p"], .directory), (["p", "test"], .directory),
    (["p", "test", "A.ts"], .file (Text.encode "/// @chapter: a \"A\"\n")),
    (["p", "test", "a.md"], .directory),
    (["p", "test", "a.md", "b.ts"], .file (Text.encode "/// @chapter: b \"B\"\n"))]⟩

def blockedFiles : List Location := [["p", "test", "A.ts"], ["p", "test", "a.md", "b.ts"]]

def blockedDesk : Desk :=
  (Desk.readSources blockedDisk (.ofRoot ["p"]) ⟨.empty, some blockedFiles⟩ blockedFiles).1

/-- The page of the chapter is written. Then the folder cannot be made, and the run fails after the
directory of the pages was cleared. -/
theorem a_page_can_be_in_the_way_of_another :
    let s := Settings.ofRoot ["p"]
    (∃ files desk tree pages, Book.ofProject blockedDisk s = .ok (files, desk, none) ∧
      (treeOf blockedDisk s desk.book.ordered).1 = .ok (tree, pages) ∧
      (finished tree desk.book.ordered).map Tree.pagePath = ["a.md", "a.md/b.md"]) ∧
    (run blockedDisk s).result =
      .error (.trouble (.on .exists ⟨.single, ["p", "docs", "chapters", "a.md"]⟩)) ∧
    (run blockedDisk s).disk.fileAt ["p", "docs", "chapters", "a.md"] =
      some (Text.encode "---\ntitle: A\n---\n\n") := by
  intro s
  have hcomputed :
      ((Settings.ofRoot ["p"]).selected.mapM (fun pattern => do
          (Discovery.ofPattern blockedDisk (.ofRoot ["p"]) (← Glob.parse pattern)).mapError .trouble) =
            .ok [blockedFiles, []] ∧
        [blockedFiles, []].flatten.Pairwise (Location.before · ·)) ∧
      (Desk.readSources blockedDisk (.ofRoot ["p"]) ⟨.empty, some blockedFiles⟩
        blockedFiles).2 = none ∧
      blockedDesk.book.chapters.Pairwise (·.priority ≤ ·.priority) ∧
      blockedDesk.book.chapters ≠ [] ∧
      ((treeOf blockedDisk (.ofRoot ["p"]) blockedDesk.book.chapters).1.map fun (tree, pages) =>
          let w := writeAll blockedDisk (.ofRoot ["p"]) tree pages blockedDesk.book.chapters
          ((finished tree blockedDesk.book.chapters).map Tree.pagePath, w.2.1,
            w.1.fileAt ["p", "docs", "chapters", "a.md"])) =
        .ok (["a.md", "a.md/b.md"],
          .error (.trouble (.on .exists ⟨.single, ["p", "docs", "chapters", "a.md"]⟩)),
          some (Text.encode "---\ntitle: A\n---\n\n")) := by
    decide +kernel
  obtain ⟨⟨hfound, hrising⟩, hstop, hpriority, hne, hwritten⟩ := hcomputed
  have hfiles : Discovery.files blockedDisk s = .ok blockedFiles :=
    Discovery.files_of_rising [blockedFiles, []] hfound hrising
  have hread : Desk.readSources blockedDisk s ⟨.empty, some blockedFiles⟩ blockedFiles =
      (blockedDesk, none) := Prod.ext rfl hstop
  have hrun := run_of_rising hfiles hread hpriority hne
  cases htree : (treeOf blockedDisk s blockedDesk.book.chapters).1 with
  | error t =>
    rw [htree] at hwritten
    cases hwritten
  | ok arranged =>
    obtain ⟨tree, pages⟩ := arranged
    rw [htree] at hrun hwritten
    obtain ⟨hpaths, hresult, hfile⟩ := by
      simpa only [Except.map, Except.ok.injEq, Prod.mk.injEq] using hwritten
    simp only [Prod.mk.injEq] at hrun
    rw [hrun.1, hrun.2]
    refine ⟨⟨blockedFiles, blockedDesk, tree, pages, Book.ofProject_of_read hfiles hread, ?_, ?_⟩,
      hresult, hfile⟩
    · rw [Book.ordered_of_rising hpriority]
      exact htree
    · rw [Book.ordered_of_rising hpriority]
      exact hpaths

end Publish

end Sourcebook
