-- The laws of the table of contents: no chapter and no page is lost, and none is listed twice.
import Mathlib
import Sourcebook.Proofs.Contents.Hoisting
import Sourcebook.Proofs.Contents.Spacing

namespace Sourcebook

open Folder (Every Tidy)

namespace Tree

variable {source : Path} {metaName : String} {additions : List Addition} {disk : Disk}

/-- How often a page was put into the tree. -/
def pagesOf (key : String × String) (additions : List Addition) : Nat :=
  ((additions.filterMap Addition.page?).map ReferencePage.key).count key

theorem length_pageHomes (key : String × String) :
    (additions.filterMap (Addition.pageHome? key)).length = pagesOf key additions := by
  unfold pagesOf
  induction additions with
  | nil => rfl
  | cons a as ih =>
    cases a with
    | page p path =>
      by_cases hp : p.key = key
      · simp [Addition.pageHome?, Addition.page?, hp, ih]
      · simp [Addition.pageHome?, Addition.page?, hp, ih]
    | chapter c path => exact ih
    | mount path dir => exact ih

/-- A page that was put once stands at one place. -/
theorem pageHomes_of_once {p : ReferencePage} {path : String} (h : .page p path ∈ additions)
    (hone : pagesOf p.key additions = 1) :
    additions.filterMap (Addition.pageHome? p.key) = [segments path] := by
  rw [← length_pageHomes, List.length_eq_one_iff] at hone
  obtain ⟨v, hv⟩ := hone
  have hmem : segments path ∈ additions.filterMap (Addition.pageHome? p.key) :=
    List.mem_filterMap.mpr ⟨_, h, Addition.pageHome?_eq_some.mpr ⟨p, path, rfl, rfl, rfl⟩⟩
  rw [hv, List.mem_singleton] at hmem
  rw [hv, hmem]

/-- An arranged tree is tidy, lists its folders, and reads the files that it read before. -/
theorem pass_lists (hr : Arrange.Readable disk metaName (made source metaName additions).root) :
    let a := pass source metaName additions disk
    a.2.Tidy ∧ Every (Arrange.ListsFolders disk metaName) a.2 ∧
      Arrange.rules disk metaName a.2 =
        Arrange.rules disk metaName (made source metaName additions).root :=
  have hs := pass_returns hr
  ⟨Arrange.arrange_tidy made_tidy hs, Arrange.arrange_listsFolders made_tidy hs,
    Arrange.arrange_rules made_tidy hs⟩

/-- A chapter is mentioned once, unless its last key hides it or a folder on its way is hidden. -/
theorem pass_mentions_chapter (hp : Proper additions)
    (hr : Arrange.Readable disk metaName (made source metaName additions).root) {c : Chapter}
    {path : String} (h : .chapter c path ∈ additions) :
    let rules := Arrange.rules disk metaName (made source metaName additions).root
    let s := Stay.last rules c.id (segments path) c.title
    (Outline.mentions [] (pass source metaName additions disk).2).countP (·.item == .chapter c.id) =
      if s.hidden || rules.hide s.way then 0 else 1 := by
  intro rules s
  obtain ⟨ht, hl, hrules⟩ := pass_lists hr
  have hstands := pass_stands hp hr h
  -- Only folders that hold the chapter list it, so an empty folder does not.
  have hsub : ∀ v ∈ (pass source metaName additions disk).2.listings c.id,
      v ∈ (pass source metaName additions disk).2.homes c.id := by
    rw [hstands.homes, hstands.listings]
    split <;> simp
  have hempty := (Folder.every_subset ht hsub).imp fun g hg (he : g.isEmpty = true) =>
    List.eq_nil_iff_forall_not_mem.mpr fun v hv => by
      have hmem := hg v hv
      rw [show g.sites _ = [] from Folder.homes_of_isEmpty c.id he] at hmem
      cases hmem
  have hcount := Outline.countP_mentions (q := (· == .chapter c.id)) (b := fun _ => false)
    (n := (·.items.count (.chapter c.id))) (fun _ => rfl) ht hl
    (Folder.every_of_all (fun g => by rfl) _) hempty []
  have hlist : (pass source metaName additions disk).2.listings c.id =
      if s.hidden then [] else [s.way] := hstands.listings
  rw [hrules, show Folder.sites _ _ = _ from hlist] at hcount
  refine hcount.trans ?_
  cases s.hidden with
  | true => rfl
  | false => cases hh : rules.hide s.way <;> simp [rules, hh]

/-- A page is mentioned once, unless its name is hidden or a folder on its way is hidden. -/
theorem pass_mentions_page
    (hr : Arrange.Readable disk metaName (made source metaName additions).root) {p : ReferencePage}
    {path : String} (h : .page p path ∈ additions) (hone : pagesOf p.key additions = 1) :
    let rules := Arrange.rules disk metaName (made source metaName additions).root
    (Outline.mentions [] (pass source metaName additions disk).2).countP (·.item.isPage p.key) =
      if Override.hides (rules (segments path)) p.id || rules.hide (segments path) then 0 else 1 := by
  intro rules
  obtain ⟨ht, hl, hrules⟩ := pass_lists hr
  have hcount := Outline.countP_mentions (q := Item.isPage p.key) (n := FolderInfo.pageCount p.key)
    (b := fun entries => Override.hides entries p.id) (fun _ => rfl) ht hl
    (Arrange.arrange_listsPages p.key made_tidy (pass_returns hr))
    (Folder.every_of_all (fun g hg => Folder.sites_of_isEmpty
      (fun i _ hpages => by simp [FolderInfo.pageCount, hpages]) hg) _) []
  have hsites : ((pass source metaName additions disk).2.sites (FolderInfo.pageCount p.key)).Perm
      [segments path] := by
    rw [← pageHomes_of_once h hone, pass, Arrange.arrange_sites (Arrange.fixed_pageCount p.key)]
    exact made_pages p.key
  rw [hrules, hsites.countP_eq] at hcount
  refine hcount.trans ?_
  cases hh : rules.hide (segments path) <;>
    cases ho : Override.hides (rules (segments path)) p.id <;> simp [rules, hh, ho]

/-- No chapter is lost or listed twice. Every chapter stands in one folder, and its page belongs
there. The table of contents links every chapter and every page once, in one line that is made for
this mention; not at all when its key hides it, or when a folder on the way to it is hidden. -/
theorem nothing_is_lost_or_listed_twice (hp : Proper additions)
    (hr : Arrange.Readable disk metaName (made source metaName additions).root) (s : Settings) :
    let root := (made source metaName additions).root
    let rules := Arrange.rules disk metaName root
    let arranged := (made source metaName additions).arrange disk
    let t := arranged.1
    let places := Outline.Places.of s t
    let toc := Outline.mentions [] t.root
    let ls := Outline.lines s t
    arranged.2.2 = none ∧
    ls = Outline.layout false (toc.flatMap (Outline.Mention.entries places)) ∧
    ∃ rs : List Outline.Row,
      ls = rs.map (Outline.rowText places) ∧
      rs.reduceOption = toc.filter (Outline.Mention.isShown places) ∧
      (∀ c path, .chapter c path ∈ additions →
        let stay := Stay.last rules c.id (segments path) c.title
        let d : Chapter := { c with folder := some (pathText stay.way), title := stay.title }
        let times := if stay.hidden || rules.hide stay.way then 0 else 1
        t.holders c.id = [stay.way] ∧ t.chapter? c.id = some d ∧
        toc.countP (·.item == .chapter c.id) = times ∧
        rs.countP (·.any (·.item == .chapter c.id)) = times ∧
        (∀ m ∈ toc, m.item = .chapter c.id → m.entries places =
          [Outline.linkLine m.way.length d.title (places.chapterLink d)]) ∧
        ∀ (i : Nat) m, rs[i]? = some (some m) → m.item = .chapter c.id →
          ls[i]? = some (Outline.linkLine m.way.length d.title (places.chapterLink d)).text) ∧
      (∀ p path, .page p path ∈ additions → pagesOf p.key additions = 1 →
        let hidden := Override.hides (rules (segments path)) p.id || rules.hide (segments path)
        let times := if hidden then 0 else 1
        toc.countP (·.item.isPage p.key) = times ∧
        rs.countP (·.any (·.item.isPage p.key)) = times ∧
        (∀ m ∈ toc, m.item.isPage p.key = true → ∃ title, m.entries places =
          [Outline.linkLine m.way.length title (places.pageLink p)]) ∧
        ∀ (i : Nat) m, rs[i]? = some (some m) → m.item.isPage p.key = true →
          ∃ title, ls[i]? = some (Outline.linkLine m.way.length title (places.pageLink p)).text) := by
  intro root rules arranged t places toc ls
  have harranged : arranged = _ := arrange_made
  have hroot : t.root = (pass source metaName additions disk).2 := congrArg (·.1.root) harranged
  have hchapters : t.chapters = (pass source metaName additions disk).1.chapters :=
    congrArg (·.1.chapters) harranged
  have htoc : toc = Outline.mentions [] (pass source metaName additions disk).2 := by
    rw [← hroot]
  have hlines : ls = _ := Outline.lines_eq_rows s t
  have hrows := Outline.reduceOption_rows false (toc.filter (Outline.Mention.isShown places))
  refine ⟨(congrArg (·.2.2) harranged).trans (pass_returns hr),
    congrArg (Outline.layout false) (Outline.ofFolder_eq places [] t.root), _, hlines, hrows, ?_, ?_⟩
  · intro c path h stay d times
    have hstands := pass_stands hp hr h
    have hd : t.chapter? c.id = some d := by
      rw [Tree.chapter?, hchapters]
      exact hstands.chapter
    have hentries : ∀ m : Outline.Mention, m.item = .chapter c.id → m.entries places =
        [Outline.linkLine m.way.length d.title (places.chapterLink d)] :=
      fun m hm => Outline.Mention.entries_chapter hm hd
    have hcount : toc.countP (·.item == .chapter c.id) = times := by
      rw [htoc]
      exact pass_mentions_chapter hp hr h
    refine ⟨holders_of_homes (hroot ▸ hstands.homes), hd, hcount, ?_, fun m _ => hentries m,
      fun i m hi hm => ?_⟩
    · rw [← hcount]
      exact Outline.countP_rows hrows fun m _ hm =>
        (Outline.Mention.line_of_entries (hentries m (beq_iff_eq.mp hm))).1
    · rw [hlines]
      exact Outline.text_of_row hi (hentries m hm)
  · intro p path h hone hidden times
    have hentries : ∀ m : Outline.Mention, m.item.isPage p.key = true → ∃ title,
        m.entries places = [Outline.linkLine m.way.length title (places.pageLink p)] :=
      fun m hm => Outline.Mention.entries_page hm
    have hcount : toc.countP (·.item.isPage p.key) = times := by
      rw [htoc]
      exact pass_mentions_page hr h hone
    refine ⟨hcount, ?_, fun m _ => hentries m, fun i m hi hm => ?_⟩
    · rw [← hcount]
      refine Outline.countP_rows hrows fun m _ hm => ?_
      obtain ⟨title, he⟩ := hentries m hm
      exact (Outline.Mention.line_of_entries he).1
    · obtain ⟨title, he⟩ := hentries m hm
      rw [hlines]
      exact ⟨title, Outline.text_of_row hi he⟩

/-- The small tree, with a page beside the second chapter. -/
def sampleWithPage : List Addition := sample ++ [.page ⟨"p", "P", "a/p.md"⟩ "a"]

theorem sampleWithPage_proper : Proper sampleWithPage :=
  ⟨by decide, by decide, by decide, by decide⟩

theorem sampleWithPage_readable : Arrange.Readable (sampleDisk sampleTop) "_meta.json"
    (made ⟨.single, ["r"]⟩ "_meta.json" sampleWithPage).root :=
  Folder.every_iff.mpr (show ∀ n ∈ Folder.nodes [] _, _ by decide)

theorem a_chapter_and_a_page_are_listed_once :
    Proper sampleWithPage ∧
    Arrange.Readable (sampleDisk sampleTop) "_meta.json"
      (made ⟨.single, ["r"]⟩ "_meta.json" sampleWithPage).root ∧
    let t := ((made ⟨.single, ["r"]⟩ "_meta.json" sampleWithPage).arrange (sampleDisk sampleTop)).1
    (Outline.mentions [] t.root).countP (·.item == .chapter "x") = 1 ∧
    (Outline.mentions [] t.root).countP (·.item.isPage ("p", "a/p.md")) = 1 ∧
    ∃ rs : List Outline.Row,
      Outline.lines (.ofRoot ["r"]) t = rs.map (Outline.rowText (.of (.ofRoot ["r"]) t)) ∧
      rs.countP (·.any (·.item == .chapter "x")) = 1 ∧
      rs.countP (·.any (·.item.isPage ("p", "a/p.md"))) = 1 := by
  refine ⟨sampleWithPage_proper, sampleWithPage_readable, ?_⟩
  obtain ⟨-, -, rs, hlines, -, hchapters, hpages⟩ := nothing_is_lost_or_listed_twice
    sampleWithPage_proper sampleWithPage_readable (.ofRoot ["r"])
  obtain ⟨-, -, hmentions, hrows, -⟩ := hchapters _ "a/b" List.mem_cons_self
  obtain ⟨hpageMentions, hpageRows, -⟩ :=
    hpages ⟨"p", "P", "a/p.md"⟩ "a" (by simp [sampleWithPage]) (by decide)
  -- The chapter is not hidden, and neither is a folder on its way; the page is neither.
  have hshown := hmentions.trans (show _ = (1 : Nat) by decide +kernel)
  have hpageShown := hpageMentions.trans (show _ = (1 : Nat) by decide +kernel)
  exact ⟨hshown, hpageShown, rs, hlines, hrows.trans (hmentions.symm.trans hshown),
    hpageRows.trans (hpageMentions.symm.trans hpageShown)⟩

end Tree

end Sourcebook
