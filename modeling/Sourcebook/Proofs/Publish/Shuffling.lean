-- The tree of a book does not depend on the order of its chapters: in any order they come to the same
-- folders with the same titles, and the folders list the same.
import Mathlib
import Sourcebook.Proofs.Contents.Shuffled
import Sourcebook.Proofs.Publish.Planting

namespace Sourcebook

namespace Tree

/-! ## The directory that all chapters share -/

variable {chapters chapters' : List Chapter}

theorem commonRoot_perm (h : chapters.Perm chapters') :
    commonRoot (chapters.map (·.sourceDir)) = commonRoot (chapters'.map (·.sourceDir)) := by
  unfold commonRoot
  rw [commonWay_congr fun w => ((h.map (·.sourceDir)).map segments).mem_iff]

theorem plot_perm (h : chapters.Perm chapters') (c : Chapter) : plot chapters c = plot chapters' c := by
  unfold plot
  rw [commonRoot_perm h]

theorem sown_perm (h : chapters.Perm chapters') : (sown chapters).Perm (sown chapters') := by
  have hsame : sown chapters' = chapters'.map fun c => .chapter c (pathText (plot chapters c)) :=
    List.map_congr_left fun c _ => by rw [plot_perm h]
  rw [hsame]
  exact h.map _

/-! ## Trees that show the same -/

/-- Every folder of a tree is in the other tree as well: with the same label and the same directory,
and with the same items in its list. The lists are the same where no two of the items that no key
names are tied. -/
def Matches (rules : Rules) (additions : List Addition) (t t' : Tree) : Prop :=
  ∀ way f, (way, f) ∈ t.nodes → ∃ g, (way, g) ∈ t'.nodes ∧
    g.info.label = f.info.label ∧ g.info.source = f.info.source ∧ f.info.items.Perm g.info.items ∧
    (Untied f.children t.chapters (remaining rules additions way (f.children.map Folder.segment)) →
      f.info.items = g.info.items)

variable {source : Path} {metaName : String} {additions others : List Addition} {disk : Disk}

theorem arranged_matches (hp : Proper additions) (hc : Chaptered additions)
    (h : additions.Perm others)
    (hr : Arrange.Readable disk metaName (made source metaName additions).root) :
    Matches (Arrange.rules disk metaName (made source metaName additions).root) additions
      ((made source metaName additions).arrange disk).1
      ((made source metaName others).arrange disk).1 := by
  have hr' := readable_perm hc h hr
  rw [arrange_made, arrange_made]
  intro way f hf
  obtain ⟨v, hv, hfind⟩ := Folder.find?_of_mem_nodes (pass_tidy hr) hf
  obtain rfl : way = v := hv
  have hsource := pass_sources_perm hc h hr way
  rw [hfind] at hsource
  obtain ⟨g, hg, hsame⟩ := Option.map_eq_some_iff.mp hsource.symm
  obtain ⟨hperm, hequal⟩ := pass_items_perm hp hc h hr rfl hfind hg
  exact ⟨g, Folder.mem_nodes_of_find? hg [], (pass_labels_perm hp hc h hr way hfind hg).symm, hsame,
    hperm, hequal⟩

theorem sown_chaptered (chapters : List Chapter) : Chaptered (sown chapters) := by
  intro a ha
  obtain ⟨c, -, rfl⟩ := List.mem_map.mp ha
  exact ⟨c, _, rfl⟩

theorem sown_proper (hids : (chapters.map (·.id)).Nodup) (hnames : ∀ c ∈ chapters, '/' ∉ c.id.toList)
    (hfolders : ∀ c ∈ chapters, c.folder = none) : Proper (sown chapters) := by
  have hchapters : chapterIds (sown chapters) = chapters.map (·.id) := by
    rw [chapterIds, chapters_sown]
  refine ⟨hchapters ▸ hids, fun id hid => ?_, fun p hp => ?_, fun c hc => ?_⟩
  · rw [hchapters] at hid
    obtain ⟨c, hc, rfl⟩ := List.mem_map.mp hid
    exact hnames c hc
  · obtain ⟨a, ha, hpage⟩ := List.mem_filterMap.mp hp
    obtain ⟨c, path, rfl⟩ := sown_chaptered chapters a ha
    cases hpage
  · rw [chapters_sown] at hc
    exact hfolders c hc

/-- The tree does not depend on the order of the chapters. In any order the pass over the tree comes to
its end, or in none. Then every chapter comes to the same folder with the same title, and the trees
have the same folders, which list the same. -/
theorem chapters_come_in_any_order (root : Path) (metaName : String) (disk : Disk)
    (h : chapters.Perm chapters') (hids : (chapters.map (·.id)).Nodup)
    (hnames : ∀ c ∈ chapters, '/' ∉ c.id.toList) (hfolders : ∀ c ∈ chapters, c.folder = none) :
    let t := ofChapters root metaName chapters
    let t' := ofChapters root metaName chapters'
    let arranged := t.arrange disk
    let arranged' := t'.arrange disk
    (arranged.2.2 = none ↔ arranged'.2.2 = none) ∧ (arranged.2.2 = none →
      (∀ c ∈ chapters, ∃ d, arranged.1.chapter? c.id = some d ∧ arranged'.1.chapter? c.id = some d) ∧
      Matches (Arrange.rules disk metaName t.root) (sown chapters) arranged.1 arranged'.1 ∧
      Matches (Arrange.rules disk metaName t'.root) (sown chapters') arranged'.1 arranged.1) := by
  intro t t' arranged arranged'
  have hp := sown_proper hids hnames hfolders
  have hc := sown_chaptered chapters
  have hperm := sown_perm h
  set source := root.join (Path.ofString (commonRoot (chapters.map (·.sourceDir)))) with hsource
  have ht : t = made source metaName (sown chapters) := ofChapters_made root metaName chapters
  have ht' : t' = made source metaName (sown chapters') := by
    rw [hsource, commonRoot_perm h]
    exact ofChapters_made root metaName chapters'
  have harranged : arranged = (made source metaName (sown chapters)).arrange disk :=
    congrArg (·.arrange disk) ht
  have harranged' : arranged' = (made source metaName (sown chapters')).arrange disk :=
    congrArg (·.arrange disk) ht'
  -- The pass comes to its end when every override file can be read.
  have hends : ∀ as : List Addition, ((made source metaName as).arrange disk).2.2 = none ↔
      Arrange.Readable disk metaName (made source metaName as).root := by
    intro as
    rw [arrange_made]
    exact ⟨fun hs => Arrange.readable_of_running hs, pass_returns⟩
  rw [harranged, harranged', ht, ht', hends, hends]
  refine ⟨⟨readable_perm hc hperm, readable_perm (hc.perm hperm) hperm.symm⟩, fun hr => ?_⟩
  refine ⟨fun c hmem => ?_, arranged_matches hp hc hperm hr,
    arranged_matches (hp.perm hperm) (hc.perm hperm) hperm.symm (readable_perm hc hperm hr)⟩
  have ha : .chapter c (pathText (plot chapters c)) ∈ sown chapters := List.mem_map_of_mem hmem
  have hfound := (pass_stands hp hr ha).chapter
  rw [arrange_made, arrange_made]
  exact ⟨_, hfound, (pass_chapter_perm hp hc hperm hr ha).symm.trans hfound⟩

/-- Two chapters in folders of their own. -/
def samplePair : List Chapter :=
  [⟨"x", "X", "a/b/x.ts", "a/b", 100, [], none⟩, ⟨"y", "Y", "c/y.ts", "c", 100, [], none⟩]

theorem a_pair_comes_in_either_order :
    samplePair.Perm samplePair.reverse ∧ (samplePair.map (·.id)).Nodup ∧
    (∀ c ∈ samplePair, '/' ∉ c.id.toList) ∧ (∀ c ∈ samplePair, c.folder = none) ∧
    let t := ofChapters ⟨.single, ["r"]⟩ "_meta.json" samplePair
    let t' := ofChapters ⟨.single, ["r"]⟩ "_meta.json" samplePair.reverse
    ((t.arrange (sampleDisk sampleTop)).1.nodes.map (·.1) = [[], ["a"], ["a", "b"], ["c"]]) ∧
    ((t'.arrange (sampleDisk sampleTop)).1.nodes.map (·.1) = [[], ["c"], ["a"], ["a", "b"]]) ∧
    (∃ d, (t.arrange (sampleDisk sampleTop)).1.chapter? "x" = some d ∧
      (t'.arrange (sampleDisk sampleTop)).1.chapter? "x" = some d ∧
      d.folder = some "" ∧ d.title = "Up") ∧
    ∃ f g, ([], f) ∈ (t.arrange (sampleDisk sampleTop)).1.nodes ∧
      ([], g) ∈ (t'.arrange (sampleDisk sampleTop)).1.nodes ∧ f.info.items.Perm g.info.items := by
  have hperm : samplePair.Perm samplePair.reverse := (List.reverse_perm samplePair).symm
  have hids : (samplePair.map (·.id)).Nodup := by decide
  have hnames : ∀ c ∈ samplePair, '/' ∉ c.id.toList := by decide
  have hfolders : ∀ c ∈ samplePair, c.folder = none := by decide
  have hroot : ∀ t : Tree, ([], t.root) ∈ t.nodes := fun t => Folder.mem_nodes_of_find? rfl []
  have hends : ((ofChapters ⟨.single, ["r"]⟩ "_meta.json" samplePair).arrange
      (sampleDisk sampleTop)).2.2 = none := by decide +kernel
  have hrisen : (((ofChapters ⟨.single, ["r"]⟩ "_meta.json" samplePair).arrange
      (sampleDisk sampleTop)).1.chapter? "x").map (fun c => (c.folder, c.title)) =
        some (some "", "Up") := by decide +kernel
  obtain ⟨-, hsame⟩ := chapters_come_in_any_order ⟨.single, ["r"]⟩ "_meta.json"
    (sampleDisk sampleTop) hperm hids hnames hfolders
  obtain ⟨hchapters, hmatches, -⟩ := hsame hends
  obtain ⟨d, hd, hd'⟩ := hchapters _ List.mem_cons_self
  rw [show Tree.chapter? _ "x" = some d from hd] at hrisen
  obtain ⟨hfolder, htitle⟩ := Prod.mk.inj (Option.some.inj hrisen)
  obtain ⟨g, hg, -, -, hlists, -⟩ := hmatches [] _ (hroot _)
  exact ⟨hperm, hids, hnames, hfolders, by decide +kernel, by decide +kernel,
    ⟨d, hd, hd', hfolder, htitle⟩, _, g, hroot _, hg, hlists⟩

end Tree

end Sourcebook
