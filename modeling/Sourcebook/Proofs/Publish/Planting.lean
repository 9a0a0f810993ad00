-- The tree of a run is made of the chapters of its book and of the reference pages. Where every
-- chapter comes to stand in it, and where its page is.
import Mathlib
import Sourcebook.Proofs.Book.Order
import Sourcebook.Proofs.Contents.Listing
import Sourcebook.Proofs.Contents.Shared
import Sourcebook.Proofs.Disk.Links
import Sourcebook.Proofs.Publish.Pages

namespace Sourcebook

open Folder (Every)

/-! ## Passes that come to their end -/

namespace Arrange

variable {disk : Disk} {metaName : String} {way : List String} {w : Work}

theorem arrangeAll_each {P : Folder → Prop} {cs : List Folder}
    (hone : ∀ c ∈ cs, ∀ v w, (arrange disk metaName v w c).1.stop = none → P c)
    (hs : (arrangeAll disk metaName way w cs).1.stop = none) : ∀ c ∈ cs, P c := by
  induction cs generalizing w with
  | nil => exact fun c hc => nomatch hc
  | cons c cs ih =>
    obtain ⟨hfirst, hrest⟩ := arrangeAll_step hs
    intro d hd
    rcases List.mem_cons.mp hd with rfl | hd
    · exact hone d List.mem_cons_self _ _ hfirst
    · exact ih (fun b hb => hone b (List.mem_cons_of_mem _ hb)) hrest d hd

/-- A pass that did not stop has read every override file. -/
theorem readable_of_running {f : Folder} (hs : (arrange disk metaName way w f).1.stop = none) :
    Readable disk metaName f := by
  induction f generalizing way w with
  | mk info children ih =>
    obtain ⟨hsall, file, hfile, -⟩ := arrange_step hs
    refine .mk ?_ (arrangeAll_each (fun c hc v w h => ih c hc h) hsall)
    rw [Folder.info_mk, hfile]
    rfl

end Arrange

/-! ## The tree as it is planted -/

namespace Tree

/-- The way of a chapter below the directory that all chapters share. -/
def plot (chapters : List Chapter) (c : Chapter) : List String :=
  (segments c.sourceDir).drop (segments (commonRoot (chapters.map (·.sourceDir)))).length

/-- What is put into the tree of chapters. -/
def sown (chapters : List Chapter) : List Addition :=
  chapters.map fun c => .chapter c (pathText (plot chapters c))

theorem chapters_sown (chapters : List Chapter) :
    (sown chapters).filterMap Addition.chapter? = chapters := by
  unfold sown
  rw [List.filterMap_map]
  exact List.filterMap_some

theorem mem_plot {chapters : List Chapter} {c : Chapter} {n : String} (h : n ∈ plot chapters c) :
    n ∈ segments c.sourceDir :=
  List.mem_of_mem_drop h

theorem segments_plot (chapters : List Chapter) (c : Chapter) :
    segments (pathText (plot chapters c)) = plot chapters c :=
  segments_pathText fun _ hn => isPart_segments (mem_plot hn)

/-- The tree of chapters is made of them, in their order. -/
theorem ofChapters_made (root : Path) (metaName : String) (chapters : List Chapter) :
    ofChapters root metaName chapters =
      made (root.join (Path.ofString (commonRoot (chapters.map (·.sourceDir))))) metaName
        (sown chapters) := by
  unfold ofChapters made sown
  rw [List.foldl_map]
  refine congrArg (fun f => List.foldl f _ chapters) (funext fun t => funext fun c => ?_)
  simp only [add]
  rw [segments_plot]
  rfl

end Tree

theorem Tree.isPart_pageName {id : String} (h : '/' ∉ id.toList) : IsPart (id ++ ".md") := by
  obtain ⟨hne, hslash, -⟩ := leadsDown_pageName h
  refine ⟨hne, fun he => ?_, hslash⟩
  have hlist := congrArg String.toList he
  rw [String.toList_append] at hlist
  have hlength := congrArg List.length hlist
  simp at hlength

theorem mem_stem {name : List Char} {c : Char} (h : c ∈ stem name) : c ∈ name := by
  unfold stem at h
  split at h
  · next before ext hcut =>
    unfold cutExtension at hcut
    dsimp only at hcut
    split at hcut
    · next dot before' hdrop =>
      split at hcut
      · cases hcut
      · cases hcut
        have hmem : c ∈ name.reverse.dropWhile (· != '.') := by
          rw [hdrop]
          exact List.mem_cons_of_mem _ (List.mem_reverse.mp h)
        exact List.mem_reverse.mp ((List.dropWhile_sublist _).mem hmem)
    · cases hcut
  · exact h

/-- A page is named without slashes. -/
theorem ReferencePage.slash_ofPath (path : String) : '/' ∉ (ofPath path).id.toList := by
  intro h
  have hmem : '/' ∈ (Path.ofString path).name.toList := mem_stem (by simpa [ofPath] using h)
  unfold Path.name at hmem
  rw [List.getLastD_eq_getLast?] at hmem
  cases hlast : (Path.ofString path).parts.getLast? with
  | none => simp [hlast] at hmem
  | some n =>
    rw [hlast] at hmem
    exact (Path.mem_partsOf (List.mem_of_getLast? hlast)).2 hmem

theorem ReferencePage.isPart_way {p : ReferencePage} {n : String} (h : n ∈ p.way) : IsPart n := by
  rcases List.mem_cons.mp h with rfl | h
  · decide
  · exact Tree.isPart_segments (List.mem_of_mem_dropLast h)

namespace Publish

open Sourcebook.Tree (plot pathText segments)

variable {d : Disk} {s : Settings} {chapters : List Chapter} {pages : List ReferencePage}
  {tree : Tree}

/-- Reference pages that stand in the tree. -/
def pagesWithin (s : Settings) (pages : List ReferencePage) : List ReferencePage :=
  if s.apiInTree then pages else []

theorem mem_pagesWithin {p : ReferencePage} (h : p ∈ pagesWithin s pages) : p ∈ pages := by
  unfold pagesWithin at h
  split at h
  · exact h
  · cases h

/-- What is put into the tree of a run: the chapters, and then the reference pages. -/
def planting (s : Settings) (chapters : List Chapter) (pages : List ReferencePage) :
    List Tree.Addition :=
  chapters.map (fun c => .chapter c (pathText (plot chapters c))) ++
    match pagesWithin s pages with
    | [] => []
    | pages => .mount ReferencePage.folder s.apiDir :: pages.map fun p => .page p (pathText p.way)

/-- The directory that the tree stands for. -/
def ground (s : Settings) (chapters : List Chapter) : Path :=
  (Path.ofLocation s.root).join (Path.ofString (Tree.commonRoot (chapters.map (·.sourceDir))))

def planted (s : Settings) (chapters : List Chapter) (pages : List ReferencePage) : Tree :=
  .made (ground s chapters) s.metaName (planting s chapters pages)

theorem ofChapters_eq (s : Settings) (chapters : List Chapter) :
    Tree.ofChapters (Path.ofLocation s.root) s.metaName chapters =
      .made (ground s chapters) s.metaName
        (chapters.map fun c => .chapter c (pathText (plot chapters c))) :=
  Tree.ofChapters_made (Path.ofLocation s.root) s.metaName chapters

/-- The tree of a run before it is arranged. -/
theorem planted_eq (s : Settings) (chapters : List Chapter) (pages : List ReferencePage) :
    planted s chapters pages =
      let t := Tree.ofChapters (Path.ofLocation s.root) s.metaName chapters
      if s.apiInTree then ReferencePage.attach t s.apiDir pages else t := by
  have hpages : ∀ (t : Tree) (ps : List ReferencePage),
      (ps.map fun p => Tree.Addition.page p (pathText p.way)).foldl Tree.add t =
        ps.foldl (fun t p => t.addPage p p.way) t := by
    intro t ps
    rw [List.foldl_map]
    refine congrArg (fun f => List.foldl f t ps) (funext fun t => funext fun p => ?_)
    simp only [Tree.add]
    rw [Tree.segments_pathText fun n hn => ReferencePage.isPart_way hn]
  rw [ofChapters_eq]
  unfold planted planting pagesWithin Tree.made
  cases s.apiInTree with
  | false => simp only [Bool.false_eq_true, if_false, List.append_nil]
  | true =>
    cases pages with
    | nil =>
      simp only [if_true, List.append_nil]
      rfl
    | cons p ps =>
      simp only [if_true]
      rw [List.foldl_append, List.foldl_cons, hpages]
      rfl

theorem chapters_planting (s : Settings) (chapters : List Chapter) (pages : List ReferencePage) :
    (planting s chapters pages).filterMap Tree.Addition.chapter? = chapters := by
  have hall : (chapters.map fun c => Tree.Addition.chapter c (pathText (plot chapters c))).filterMap
      Tree.Addition.chapter? = chapters := Tree.chapters_sown chapters
  have hnone : ∀ ps : List ReferencePage,
      (ps.map fun p => Tree.Addition.page p (pathText p.way)).filterMap Tree.Addition.chapter? = [] := by
    intro ps
    rw [List.filterMap_map, List.filterMap_eq_nil_iff]
    exact fun _ _ => rfl
  unfold planting
  rw [List.filterMap_append, hall]
  split
  · exact List.append_nil _
  · rw [List.filterMap_cons_none rfl, hnone, List.append_nil]

theorem pages_planting (s : Settings) (chapters : List Chapter) (pages : List ReferencePage) :
    (planting s chapters pages).filterMap Tree.Addition.page? = pagesWithin s pages := by
  have hnone : (chapters.map fun c => Tree.Addition.chapter c (pathText (plot chapters c))).filterMap
      Tree.Addition.page? = [] := by
    rw [List.filterMap_map, List.filterMap_eq_nil_iff]
    exact fun _ _ => rfl
  have hall : ∀ ps : List ReferencePage,
      (ps.map fun p => Tree.Addition.page p (pathText p.way)).filterMap Tree.Addition.page? = ps := by
    intro ps
    rw [List.filterMap_map]
    exact List.filterMap_some
  unfold planting
  rw [List.filterMap_append, hnone, List.nil_append]
  split
  · next h => rw [h]; rfl
  · rw [List.filterMap_cons_none rfl, hall]

/-- A tree that grew from what was planted. -/
structure Grown (d : Disk) (s : Settings) (chapters : List Chapter) (tree : Tree)
    (pages : List ReferencePage) : Prop where
  fresh : ∀ c ∈ chapters, c.Fresh
  found : ∃ warnings, ReferencePage.collect d s.apiDir = .ok (pages, warnings)
  proper : Tree.Proper (planting s chapters pages)
  readable : Arrange.Readable d s.metaName (planted s chapters pages).root
  arranged : tree = ((planted s chapters pages).arrange d).1

/-- The pages of a tree are those that were found before it was made. -/
theorem found_of_treeOf (h : (treeOf d s chapters).1 = .ok (tree, pages)) :
    ∃ warnings, ReferencePage.collect d s.apiDir = .ok (pages, warnings) := by
  unfold treeOf at h
  dsimp only at h
  split at h
  · cases h
  · next found warnings hfound =>
    generalize Tree.arrange _ d = arranged at h
    obtain ⟨t, notices, _ | stop⟩ := arranged
    · cases h
      exact ⟨warnings, hfound⟩
    · cases h

theorem grown_of_treeOf (hc : ∀ c ∈ chapters, c.Fresh) (hn : Distinct chapters)
    (h : (treeOf d s chapters).1 = .ok (tree, pages)) : Grown d s chapters tree pages := by
  unfold treeOf at h
  dsimp only at h
  split at h
  · cases h
  · next found warnings hfound =>
    rw [← planted_eq s chapters found] at h
    generalize harranged : (planted s chapters found).arrange d = arranged at h
    obtain ⟨t, notices, _ | stop⟩ := arranged
    · cases h
      have hpass : (planted s chapters pages).arrange d = _ := Tree.arrange_made
      have hstop : (Tree.pass (ground s chapters) s.metaName (planting s chapters pages) d).1.stop =
          none := congrArg (·.2.2) (hpass.symm.trans harranged)
      refine ⟨hc, ⟨warnings, hfound⟩, ⟨?_, ?_, ?_, ?_⟩, Arrange.readable_of_running hstop, ?_⟩
      · unfold Tree.chapterIds
        rw [chapters_planting]
        exact hn
      · unfold Tree.chapterIds
        rw [chapters_planting]
        intro id hid
        obtain ⟨c, hmem, rfl⟩ := List.mem_map.mp hid
        exact (hc c hmem).id
      · rw [pages_planting]
        intro p hp
        obtain ⟨spelled, rfl, -, -⟩ := mem_collect hfound (mem_pagesWithin hp)
        exact ReferencePage.slash_ofPath _
      · rw [chapters_planting]
        exact fun c hmem => (hc c hmem).folder
      · rw [harranged]
    · cases h

/-! ## Where chapters come to stand -/

/-- Where a chapter comes to stand. -/
def stayOf (d : Disk) (s : Settings) (chapters : List Chapter) (pages : List ReferencePage)
    (c : Chapter) : Stay :=
  .last (Arrange.rules d s.metaName (planted s chapters pages).root) c.id (plot chapters c) c.title

/-- A chapter as the tree leaves it. -/
def settled (d : Disk) (s : Settings) (chapters : List Chapter) (pages : List ReferencePage)
    (c : Chapter) : Chapter :=
  { c with
    folder := some (pathText (stayOf d s chapters pages c).way)
    title := (stayOf d s chapters pages c).title }

theorem settled_id (d : Disk) (s : Settings) (chapters : List Chapter) (pages : List ReferencePage)
    (c : Chapter) : (settled d s chapters pages c).id = c.id := by
  simp only [settled]

theorem settled_folder (d : Disk) (s : Settings) (chapters : List Chapter)
    (pages : List ReferencePage) (c : Chapter) :
    (settled d s chapters pages c).folder = some (pathText (stayOf d s chapters pages c).way) := by
  simp only [settled]

namespace Grown

variable {c : Chapter}

theorem root (h : Grown d s chapters tree pages) :
    tree.root = (Tree.pass (ground s chapters) s.metaName (planting s chapters pages) d).2 := by
  rw [h.arranged]
  exact congrArg (·.1.root) Tree.arrange_made

theorem stands (h : Grown d s chapters tree pages) (hc : c ∈ chapters) :
    tree.root.homes c.id = [(stayOf d s chapters pages c).way] ∧
      tree.chapter? c.id = some (settled d s chapters pages c) := by
  have hmem : .chapter c (pathText (plot chapters c)) ∈ planting s chapters pages :=
    List.mem_append_left _ (List.mem_map.mpr ⟨c, hc, rfl⟩)
  have hstands := Tree.pass_stands h.proper h.readable hmem
  rw [Tree.segments_plot] at hstands
  refine ⟨h.root ▸ hstands.homes, ?_⟩
  have hchapter := hstands.chapter
  rw [List.nil_append] at hchapter
  rw [h.arranged, planted, Tree.arrange_made]
  exact hchapter

/-- The tree leaves every chapter as it is, but for its folder and its title. -/
theorem finished (h : Grown d s chapters tree pages) :
    finished tree chapters = chapters.map (settled d s chapters pages) := by
  unfold Publish.finished
  refine List.map_congr_left fun c hc => ?_
  rw [(h.stands hc).2]
  rfl

theorem plot_leadsDown (h : Grown d s chapters tree pages) (hc : c ∈ chapters) {n : String}
    (hn : n ∈ plot chapters c) : LeadsDown n :=
  (h.fresh c hc).dir n (Tree.mem_plot hn)

theorem way_upward (d : Disk) (s : Settings) (chapters : List Chapter) (pages : List ReferencePage)
    (c : Chapter) : (stayOf d s chapters pages c).way <+: plot chapters c :=
  Stay.last_prefix _ _ _ _

theorem page_names (h : Grown d s chapters tree pages) (hc : c ∈ chapters) :
    ∀ n ∈ (stayOf d s chapters pages c).way ++ [c.id ++ ".md"], LeadsDown n ∧ IsPart n := by
  have hid := (h.fresh c hc).id
  intro n hn
  rcases List.mem_append.mp hn with hn | hn
  · have hplot := (way_upward d s chapters pages c).mem hn
    exact ⟨h.plot_leadsDown hc hplot, Tree.isPart_segments (Tree.mem_plot hplot)⟩
  · rw [List.mem_singleton.mp hn]
    exact ⟨Tree.leadsDown_pageName hid, Tree.isPart_pageName hid⟩

/-- The path of a page leads to the folder where the chapter comes to stand, and ends with its id. -/
theorem pagePath_settled (h : Grown d s chapters tree pages) (hc : c ∈ chapters) :
    Tree.pagePath (settled d s chapters pages c) =
      pathText ((stayOf d s chapters pages c).way ++ [c.id ++ ".md"]) := by
  have hid := (h.fresh c hc).id
  rw [← settled_id d s chapters pages c] at hid ⊢
  refine Tree.pagePath_placed hid (fun n hn => ?_) ?_
  · exact (h.page_names hc n (List.mem_append_left _ hn)).1
  · rw [settled_folder, Option.getD_some]

theorem pageOf_eq (h : Grown d s chapters tree pages) (hc : c ∈ chapters) :
    pageOf s (settled d s chapters pages c) =
      s.outDir.join ⟨.none, (stayOf d s chapters pages c).way ++ [c.id ++ ".md"]⟩ := by
  unfold pageOf
  rw [h.pagePath_settled hc]
  exact congrArg s.outDir.join (Path.ofString_intercalate (h.page_names hc))

/-- The page of a chapter stands in the folder where the chapter comes to stand. -/
theorem pageOf_settled (h : Grown d s chapters tree pages) (hc : c ∈ chapters) :
    (pageOf s (settled d s chapters pages c)).normal [] =
      s.outDir.normal [] ++ ((stayOf d s chapters pages c).way ++ [c.id ++ ".md"]) := by
  unfold pageOf
  rw [h.pagePath_settled hc]
  exact Path.normal_join_intercalate s.outDir (h.page_names hc)

/-- Different chapters have pages at different places. -/
theorem places_nodup (h : Grown d s chapters tree pages) (hn : Distinct chapters) :
    ((chapters.map (settled d s chapters pages)).map fun c => (pageOf s c).normal []).Nodup := by
  rw [List.map_map]
  refine List.Nodup.map_on ?_ (List.Nodup.of_map _ hn)
  intro a ha b hb he
  simp only [Function.comp_apply] at he
  rw [h.pageOf_settled ha, h.pageOf_settled hb, List.append_cancel_left_eq] at he
  have hlast := congrArg List.getLast? he
  simp only [List.getLast?_concat, Option.some.injEq] at hlast
  have hid : a.id = b.id := by
    apply String.toList_injective
    have hlist := congrArg String.toList hlast
    rw [String.toList_append, String.toList_append] at hlist
    exact List.append_cancel_right hlist
  exact List.inj_on_of_nodup_map hn ha hb hid

/-! ## The folders of the tree -/

theorem tidy (h : Grown d s chapters tree pages) : tree.root.Tidy :=
  h.root ▸ (Tree.pass_lists h.readable).1

theorem rules (h : Grown d s chapters tree pages) :
    Arrange.rules d s.metaName tree.root =
      Arrange.rules d s.metaName (planted s chapters pages).root :=
  h.root ▸ (Tree.pass_lists h.readable).2.2

/-- A chapter that is not of the book stands nowhere and is not listed. -/
theorem nowhere (h : Grown d s chapters tree pages) {id : String} (hid : ∀ c ∈ chapters, c.id ≠ id) :
    tree.root.homes id = [] ∧ tree.root.listings id = [] := by
  have hnot : id ∉ Tree.chapterIds (planting s chapters pages) := by
    unfold Tree.chapterIds
    rw [chapters_planting]
    intro hmem
    obtain ⟨c, hc, he⟩ := List.mem_map.mp hmem
    exact hid c hc he
  have hhomes : (planted s chapters pages).root.homes id = [] := by
    unfold planted
    rw [Tree.made_homes h.proper.once]
    exact Tree.homes_of_not_mem hnot
  rw [h.root]
  have hafter := Arrange.arrange_nowhere hhomes (Tree.pass_returns h.readable)
  exact ⟨hafter.1, hafter.2.1⟩

/-- Only chapters of the book are listed. -/
theorem listed (h : Grown d s chapters tree pages) {way : List String} {f : Folder}
    (hf : tree.root.find? way = some f) {id : String} (hi : .chapter id ∈ f.info.items) :
    ∃ c ∈ chapters, c.id = id := by
  by_contra hnone
  push Not at hnone
  have hmem : way ∈ tree.root.listings id :=
    (Folder.mem_sites_iff h.tidy).mpr ⟨f, hf, (List.count_pos_iff.mpr hi).ne'⟩
  rw [(h.nowhere hnone).2] at hmem
  cases hmem

/-- A chapter of the book stands where it came to stand, and no other chapter stands. -/
theorem home (h : Grown d s chapters tree pages) {way : List String} {id : String}
    (hmem : way ∈ tree.root.homes id) :
    ∃ c ∈ chapters, c.id = id ∧ way = (stayOf d s chapters pages c).way := by
  by_cases hid : ∃ c ∈ chapters, c.id = id
  · obtain ⟨c, hc, rfl⟩ := hid
    rw [(h.stands hc).1, List.mem_singleton] at hmem
    exact ⟨c, hc, rfl, hmem⟩
  · push Not at hid
    rw [(h.nowhere hid).1] at hmem
    cases hmem

end Grown

end Publish

end Sourcebook
