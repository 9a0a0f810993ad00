-- The order in which chapters were put into a tree does not show when the tree is arranged, but
-- where the sort of a list leaves it open.
import Mathlib
import Sourcebook.Proofs.Contents.Made
import Sourcebook.Proofs.Contents.Ordered

namespace Sourcebook

open Folder (Every Tidy)

/-- Two lists with the same things, of which there is one at most, are the same. -/
theorem eq_of_perm_of_subsingleton {α : Type} {l m : List α} (h : l.Perm m)
    (hone : ∀ x ∈ l, ∀ y ∈ l, x = y) : l = m := by
  have htrue : ∀ k : List α, k.Pairwise fun _ _ => True := fun _ =>
    List.pairwise_of_forall fun _ _ => trivial
  exact List.Perm.eq_of_pairwise (fun x y hx hy _ _ => hone x hx y (h.mem_iff.mpr hy)) (htrue l)
    (htrue m) h

namespace Tree

variable {source : Path} {metaName : String} {additions others : List Addition} {disk : Disk}
  {rules : Rules} {spot : List String}

/-! ## Labels -/

theorem Visit.labels {file : OverrideFile} {w : Arrange.Work} {info : FolderInfo}
    {inside : List Folder} {last : Folder}
    (hv : Visit rules additions metaName spot file w info inside last) :
    Folder.labels last.children = (Folder.labels inside).map fun x =>
      (x.1, Arrange.labelBy (Arrange.available info inside) file.entries x.1 x.2) :=
  hv.worn.labels.trans (Arrange.arrangeBy_labels hv.once)

theorem Visit.stocked_iff_held {file : OverrideFile} {w : Arrange.Work} {info : FolderInfo}
    {inside : List Folder} {last : Folder}
    (hv : Visit rules additions metaName spot file w info inside last) {segment : String} :
    Stocked rules additions spot segment ↔
      (segment, .folder segment) ∈ Arrange.available info inside := by
  rw [hv.stocked_iff, Arrange.mem_available]
  constructor
  · rintro ⟨c, hc, rfl, he⟩
    exact Or.inl ⟨c, hc, he, rfl⟩
  · rintro (⟨c, hc, he, h⟩ | ⟨id, -, h⟩ | ⟨p, -, h⟩) <;> cases h
    exact ⟨c, hc, rfl, he⟩

/-- In an arranged tree a folder has the label that the folder around gives it, if it was not empty
when that had its turn. -/
theorem pass_label (hp : Proper additions)
    (hr : Arrange.Readable disk metaName (made source metaName additions).root)
    (hrules : Arrange.rules disk metaName (made source metaName additions).root = rules)
    {f g : Folder} {segment : String}
    (hf : (made source metaName additions).root.find? (spot ++ [segment]) = some f)
    (hg : (pass source metaName additions disk).2.find? (spot ++ [segment]) = some g) :
    (Stocked rules additions spot segment →
      g.info.label = Override.relabel (rules spot) segment f.info.label) ∧
    (¬ Stocked rules additions spot segment → g.info.label = f.info.label) := by
  subst hrules
  obtain ⟨⟨info, children⟩, hfind, hfmem, rfl⟩ := Folder.exists_of_find?_snoc hf
  obtain ⟨above, habove, hgmem, hsegment⟩ := Folder.exists_of_find?_snoc hg
  obtain ⟨file, w, inside, last, hlabels, hlast, hv⟩ := exists_visit hp hr hfind
  obtain rfl : last = above := Option.some.inj (hlast.symm.trans habove)
  have hlabel : (f.segment, g.info.label) ∈ Folder.labels last.children :=
    List.mem_map.mpr ⟨g, hgmem, by rw [hsegment]⟩
  rw [hv.labels, hlabels, List.mem_map] at hlabel
  obtain ⟨x, hx, he⟩ := hlabel
  obtain ⟨c, hc, rfl⟩ := List.mem_map.mp hx
  obtain ⟨hname, hgiven⟩ := Prod.mk.inj he
  have htidy : (Folder.mk info children).Tidy := Every.find? made_tidy hfind
  obtain rfl : c = f := List.inj_on_of_nodup_map htidy.nodup hc hfmem hname
  rw [hv.entries, ← hgiven, hv.stocked_iff_held]
  unfold Arrange.labelBy
  refine ⟨fun h => ?_, fun h => ?_⟩
  · rw [if_pos (List.contains_iff_mem.mpr h)]
  · rw [if_neg fun hmem => h (List.contains_iff_mem.mp hmem)]

/-! ## Additions in another order -/

/-- Nothing but chapters. -/
def Chaptered (additions : List Addition) : Prop :=
  ∀ a ∈ additions, ∃ c path, a = .chapter c path

theorem Chaptered.perm (hc : Chaptered additions) (h : additions.Perm others) : Chaptered others :=
  fun a ha => hc a (h.mem_iff.mpr ha)

theorem Chaptered.pagesAt (hc : Chaptered additions) : pagesAt additions spot = [] := by
  unfold Tree.pagesAt
  rw [List.filterMap_eq_nil_iff]
  intro a ha
  obtain ⟨c, path, rfl⟩ := hc a ha
  rfl

theorem Chaptered.effect_source (hc : Chaptered additions) :
    ∀ a ∈ additions, ∀ i, (a.effect i).source = i.source := by
  intro a ha i
  obtain ⟨c, path, rfl⟩ := hc a ha
  change (ite _ _ _ : FolderInfo).source = i.source
  split <;> rfl

theorem Proper.perm (hp : Proper additions) (h : additions.Perm others) : Proper others := by
  have hids : (chapterIds additions).Perm (chapterIds others) := (h.filterMap _).map _
  exact {
    once := hids.nodup_iff.mp hp.once
    chapters := fun id hid => hp.chapters id (hids.mem_iff.mpr hid)
    pages := fun p hmem => hp.pages p ((h.filterMap _).mem_iff.mpr hmem)
    unplaced := fun c hmem => hp.unplaced c ((h.filterMap _).mem_iff.mpr hmem) }

theorem filled_perm (h : additions.Perm others) (segment : String) :
    filled rules additions spot segment = filled rules others spot segment :=
  h.any_eq

theorem stocked_perm (h : additions.Perm others) (segment : String) :
    Stocked rules additions spot segment ↔ Stocked rules others spot segment := by
  simp only [Stocked, h.mem_iff]

theorem residents_perm (h : additions.Perm others) :
    (residents rules additions spot).Perm (residents rules others spot) :=
  h.filterMap _

/-- A key brings the same, as it calls one chapter at most. -/
theorem listed_perm (hp : Proper additions) (h : additions.Perm others) (hc : Chaptered additions) :
    listed rules additions spot = listed rules others spot := by
  have hcalled : ∀ key, (residents rules additions spot).filter (calls rules spot key) =
      (residents rules others spot).filter (calls rules spot key) := by
    intro key
    refine eq_of_perm_of_subsingleton ((residents_perm h).filter _) fun c hc d hd => ?_
    obtain ⟨hc, hcalled⟩ := List.mem_filter.mp hc
    obtain ⟨hd, hdcalled⟩ := List.mem_filter.mp hd
    exact calls_unique hp hc hd hcalled hdcalled
  funext e
  unfold listed brought
  rw [hcalled, filled_perm h, hc.pagesAt, (hc.perm h).pagesAt]

theorem remaining_perm (h : additions.Perm others) {names names' : List String}
    (hn : names.Perm names') :
    (remaining rules additions spot names).Perm (remaining rules others spot names') := by
  have hfree : (fun s => filled rules additions spot s && free rules spot s) =
      fun s => filled rules others spot s && free rules spot s :=
    funext fun s => by rw [filled_perm h]
  unfold remaining
  rw [hfree]
  exact (((hn.filter _).map _).append (((residents_perm h).filter _).map _)).append
    (((h.filterMap _).filter _).map _)

/-! ## The tree that is made -/

/-- There is a folder on the ways of what was put into a tree, and it stands for the directory at the
end of its way. -/
theorem made_source_iff (hc : Chaptered additions) {v : List String} {p : Path} :
    ((made source metaName additions).root.find? v).map (·.info.source) = some p ↔
      (v = [] ∨ ∃ a ∈ additions, v <+: a.way) ∧ p = ⟨source.root, source.parts ++ v⟩ := by
  obtain ⟨hsource, hrooted⟩ := @made_rooted source metaName additions hc.effect_source
  rw [← @made_find?_isSome source metaName, Option.map_eq_some_iff]
  constructor
  · rintro ⟨f, hf, rfl⟩
    exact ⟨by rw [hf]; rfl, hsource ▸ hrooted v f hf⟩
  · rintro ⟨hsome, rfl⟩
    obtain ⟨f, hf⟩ := Option.isSome_iff_exists.mp hsome
    exact ⟨f, hf, hsource ▸ hrooted v f hf⟩

theorem made_sources_perm (hc : Chaptered additions) (h : additions.Perm others) (v : List String) :
    ((made source metaName additions).root.find? v).map (·.info.source) =
      ((made source metaName others).root.find? v).map (·.info.source) := by
  refine Option.ext fun p => ?_
  rw [made_source_iff hc, made_source_iff (hc.perm h)]
  simp only [h.mem_iff]

theorem made_rules_perm (hc : Chaptered additions) (h : additions.Perm others) :
    Arrange.rules disk metaName (made source metaName additions).root =
      Arrange.rules disk metaName (made source metaName others).root :=
  Arrange.rules_of_sources (made_sources_perm hc h)

theorem readable_perm (hc : Chaptered additions) (h : additions.Perm others)
    (hr : Arrange.Readable disk metaName (made source metaName additions).root) :
    Arrange.Readable disk metaName (made source metaName others).root := by
  refine (Folder.every_iff_find? made_tidy).mpr fun v f hf => ?_
  have hsource : ((made source metaName additions).root.find? v).map (·.info.source) =
      ((made source metaName others).root.find? v).map (·.info.source) := made_sources_perm hc h v
  rw [hf] at hsource
  obtain ⟨g, hg, he⟩ := Option.map_eq_some_iff.mp hsource
  have hfile := (Folder.every_iff_find? made_tidy).mp hr v g hg
  unfold Arrange.fileAt at hfile ⊢
  rwa [he] at hfile

/-! ## The tree that is arranged -/

/-- An arranged tree has the folders of the tree that was made. -/
theorem pass_source (hr : Arrange.Readable disk metaName (made source metaName additions).root)
    (v : List String) : ((pass source metaName additions disk).2.find? v).map (·.info.source) =
      ((made source metaName additions).root.find? v).map (·.info.source) :=
  Arrange.arrange_source made_tidy (pass_returns hr) v

theorem pass_sources_perm (hc : Chaptered additions) (h : additions.Perm others)
    (hr : Arrange.Readable disk metaName (made source metaName additions).root) (v : List String) :
    ((pass source metaName additions disk).2.find? v).map (·.info.source) =
      ((pass source metaName others disk).2.find? v).map (·.info.source) := by
  rw [pass_source hr, pass_source (readable_perm hc h hr), made_sources_perm hc h]

/-- Chapters come to the same place, with the same title. -/
theorem pass_chapter_perm (hp : Proper additions) (hc : Chaptered additions)
    (h : additions.Perm others)
    (hr : Arrange.Readable disk metaName (made source metaName additions).root) {c : Chapter}
    {path : String} (ha : .chapter c path ∈ additions) :
    (pass source metaName additions disk).1.chapters.find? (·.id == c.id) =
      (pass source metaName others disk).1.chapters.find? (·.id == c.id) := by
  have hone := (pass_stands hp hr ha).chapter
  have hother := (pass_stands (hp.perm h) (readable_perm hc h hr) (h.mem_iff.mp ha)).chapter
  rw [← made_rules_perm hc h] at hother
  exact hone.trans hother.symm

theorem pass_labels_perm (hp : Proper additions) (hc : Chaptered additions)
    (h : additions.Perm others)
    (hr : Arrange.Readable disk metaName (made source metaName additions).root) (v : List String)
    {f g : Folder} (hf : (pass source metaName additions disk).2.find? v = some f)
    (hg : (pass source metaName others disk).2.find? v = some g) : f.info.label = g.info.label := by
  have hr' := readable_perm hc h hr
  rcases List.eq_nil_or_concat v with rfl | ⟨spot, segment, rfl⟩
  · cases hf
    cases hg
    have hroot : ∀ as : List Addition, (pass source metaName as disk).2.info.label = "root" := by
      intro as
      refine (Arrange.arrange_label _).trans ?_
      rw [made_labels.here, made_root_segment]
    rw [hroot, hroot]
  · rw [List.concat_eq_append] at hf hg
    -- Before the pass the folder is called by its name in both trees.
    have hmade : ∀ {as : List Addition} {a : Folder},
        Arrange.Readable disk metaName (made source metaName as).root →
        (pass source metaName as disk).2.find? (spot ++ [segment]) = some a →
        ∃ b, (made source metaName as).root.find? (spot ++ [segment]) = some b ∧
          b.info.label = segment := by
      intro as a hr ha
      obtain ⟨b, hb⟩ := exists_made hr ha
      refine ⟨b, hb, (Every.find? made_labels hb).here.trans ?_⟩
      obtain ⟨above, -, -, hsegment⟩ := Folder.exists_of_find?_snoc hb
      exact hsegment
    obtain ⟨a, ha, halabel⟩ := hmade hr hf
    obtain ⟨b, hb, hblabel⟩ := hmade hr' hg
    have hone := pass_label hp hr rfl ha hf
    have hother := pass_label (hp.perm h) hr' (made_rules_perm hc h).symm hb hg
    rw [halabel] at hone
    rw [hblabel, ← stocked_perm h] at hother
    by_cases hs : Stocked (Arrange.rules disk metaName (made source metaName additions).root)
        additions spot segment
    · rw [hone.1 hs, hother.1 hs]
    · rw [hone.2 hs, hother.2 hs]

/-! ## Lists -/

/-- Two folders among items do not show the same label, but for case, and two chapters among them do
not have the same title, but for case, with the same priority. -/
structure Untied (children : List Folder) (chapters : List Chapter) (items : List Item) : Prop where
  folders : ∀ f ∈ children, ∀ g ∈ children, .folder f.segment ∈ items → .folder g.segment ∈ items →
    Text.foldCase f.info.label.toList = Text.foldCase g.info.label.toList → f.segment = g.segment
  chapters : ∀ c ∈ chapters, ∀ d ∈ chapters, .chapter c.id ∈ items → .chapter d.id ∈ items →
    Text.foldCase c.title.toList = Text.foldCase d.title.toList → c.priority = d.priority →
      c.id = d.id

section Sorted

variable {children children' : List Folder} {chapters chapters' : List Chapter} {items : List Item}

/-- Items that are folders inside, or chapters. -/
def Shown (children : List Folder) (chapters : List Chapter) (item : Item) : Prop :=
  (∃ f, children.find? (·.segment == f.segment) = some f ∧ item = .folder f.segment) ∨
    ∃ c, chapters.find? (·.id == c.id) = some c ∧ item = .chapter c.id

theorem restKey_folder {f : Folder} (h : children.find? (·.segment == f.segment) = some f) :
    Arrange.restKey children chapters (.folder f.segment) =
      ⟨0, Text.foldCase f.info.label.toList, defaultPriority⟩ := by
  simp [Arrange.restKey, Arrange.labelOf, h]

theorem restKey_chapter {c : Chapter} (h : chapters.find? (·.id == c.id) = some c) :
    Arrange.restKey children chapters (.chapter c.id) =
      ⟨1, Text.foldCase c.title.toList, c.priority⟩ := by
  simp [Arrange.restKey, Arrange.labelOf, h]

/-- Where nothing is tied, different items come at different places. -/
theorem Untied.inj (h : Untied children chapters items)
    (hshown : ∀ item ∈ items, Shown children chapters item) {x y : Item} (hx : x ∈ items)
    (hy : y ∈ items)
    (he : Arrange.restKey children chapters x = Arrange.restKey children chapters y) : x = y := by
  rcases hshown x hx with ⟨f, hf, rfl⟩ | ⟨c, hc, rfl⟩ <;>
    rcases hshown y hy with ⟨g, hg, rfl⟩ | ⟨d, hd, rfl⟩
  · rw [restKey_folder hf, restKey_folder hg] at he
    obtain ⟨-, hlabel, -⟩ := Arrange.RestKey.mk.inj he
    exact congrArg _ (h.folders f (List.mem_of_find?_eq_some hf) g (List.mem_of_find?_eq_some hg)
      hx hy hlabel)
  · rw [restKey_folder hf, restKey_chapter hd] at he
    cases he
  · rw [restKey_chapter hc, restKey_folder hg] at he
    cases he
  · rw [restKey_chapter hc, restKey_chapter hd] at he
    obtain ⟨-, htitle, hpriority⟩ := Arrange.RestKey.mk.inj he
    exact congrArg _ (h.chapters c (List.mem_of_find?_eq_some hc) d (List.mem_of_find?_eq_some hd)
      hx hy htitle hpriority)

/-- Where nothing is tied, there is one way to sort. -/
theorem eq_of_sorted (h : Untied children chapters items)
    (hshown : ∀ item ∈ items, Shown children chapters item)
    (hkeys : ∀ item ∈ items, Arrange.restKey children chapters item =
      Arrange.restKey children' chapters' item) {rest rest' : List Item}
    (hrest : rest.Perm items) (hrest' : rest'.Perm items)
    (hsorted : rest.Pairwise fun a b => (Arrange.restKey children chapters a).le
      (Arrange.restKey children chapters b) = true)
    (hsorted' : rest'.Pairwise fun a b => (Arrange.restKey children' chapters' a).le
      (Arrange.restKey children' chapters' b) = true) : rest = rest' := by
  have hsame : rest'.Pairwise fun a b => (Arrange.restKey children chapters a).le
      (Arrange.restKey children chapters b) = true := by
    refine hsorted'.imp_of_mem fun {a b} ha hb hle => ?_
    rwa [hkeys a (hrest'.mem_iff.mp ha), hkeys b (hrest'.mem_iff.mp hb)]
  refine List.Perm.eq_of_pairwise (fun x y hx hy hxy hyx => ?_) hsorted hsame
    (hrest.trans hrest'.symm)
  exact h.inj hshown (hrest.mem_iff.mp hx) (hrest'.mem_iff.mp hy)
    (Arrange.RestKey.eq_of_le hxy hyx)

end Sorted

theorem pass_tidy (hr : Arrange.Readable disk metaName (made source metaName additions).root) :
    (pass source metaName additions disk).2.Tidy :=
  Arrange.arrange_tidy made_tidy (pass_returns hr)

/-- What no key names in an arranged tree is a folder inside or a chapter, and it has its place in the
sort from what is shown, whatever the order of the additions. -/
theorem remaining_shown (hp : Proper additions) (hc : Chaptered additions)
    (h : additions.Perm others)
    (hr : Arrange.Readable disk metaName (made source metaName additions).root) {f g : Folder}
    (hf : (pass source metaName additions disk).2.find? spot = some f)
    (hg : (pass source metaName others disk).2.find? spot = some g)
    {item : Item} (hitem : item ∈ remaining rules additions spot (f.children.map Folder.segment)) :
    Shown f.children (pass source metaName additions disk).1.chapters item ∧
      Arrange.restKey f.children (pass source metaName additions disk).1.chapters item =
        Arrange.restKey g.children (pass source metaName others disk).1.chapters item := by
  rcases mem_remaining.mp hitem with ⟨s, hs, -, -, rfl⟩ | ⟨⟨c, way⟩, hresident, -, -, rfl⟩ |
    ⟨p, hpage, -⟩
  · obtain ⟨x, hx, rfl⟩ := List.mem_map.mp hs
    have hfind := Folder.find?_segment (Every.find? (pass_tidy hr) hf).here.1 hx
    have hxfind : (pass source metaName additions disk).2.find? (spot ++ [x.segment]) = some x := by
      rw [Folder.find?_snoc, hf, Option.bind_some]
      exact hfind
    have hsource := pass_sources_perm hc h hr (spot ++ [x.segment])
    rw [hxfind] at hsource
    obtain ⟨y, hyfind, -⟩ := Option.map_eq_some_iff.mp hsource.symm
    have hlabel := pass_labels_perm hp hc h hr _ hxfind hyfind
    rw [Folder.find?_snoc, hg, Option.bind_some] at hyfind
    obtain ⟨hy, hname⟩ := Folder.child?_eq_some hyfind
    refine ⟨Or.inl ⟨x, hfind, rfl⟩, ?_⟩
    rw [restKey_folder hfind, hlabel, ← hname, restKey_folder (hname ▸ hyfind)]
  · obtain ⟨path, ha, -, -⟩ := mem_residents.mp hresident
    obtain ⟨d, hd, hid⟩ : ∃ d, (pass source metaName additions disk).1.chapters.find?
        (·.id == c.id) = some d ∧ d.id = c.id := ⟨_, (pass_stands hp hr ha).chapter, rfl⟩
    have hother := (pass_chapter_perm hp hc h hr ha).symm.trans hd
    dsimp only
    rw [← hid] at hd hother ⊢
    exact ⟨Or.inr ⟨d, hd, rfl⟩, by rw [restKey_chapter hd, restKey_chapter hother]⟩
  · rw [hc.pagesAt] at hpage
    cases hpage

/-- The lists of a tree have the same items, whatever the order of the additions, and they are the same
lists where no two of the items that no key names are tied. -/
theorem pass_items_perm (hp : Proper additions) (hc : Chaptered additions)
    (h : additions.Perm others)
    (hr : Arrange.Readable disk metaName (made source metaName additions).root)
    (hrules : Arrange.rules disk metaName (made source metaName additions).root = rules)
    {f g : Folder} (hf : (pass source metaName additions disk).2.find? spot = some f)
    (hg : (pass source metaName others disk).2.find? spot = some g) :
    f.info.items.Perm g.info.items ∧
      (Untied f.children (pass source metaName additions disk).1.chapters
        (remaining rules additions spot (f.children.map Folder.segment)) →
        f.info.items = g.info.items) := by
  have hr' := readable_perm hc h hr
  have hrules' := (made_rules_perm hc h).symm.trans hrules
  obtain ⟨a, ha⟩ := exists_made hr hf
  obtain ⟨b, hb⟩ := exists_made hr' hg
  have hone := pass_items hp hr ha hf
  have hother := pass_items (hp.perm h) hr' hb hg
  simp only [hrules] at hone
  simp only [hrules'] at hother
  obtain ⟨-, rest, hitems, hrest, hsorted⟩ := hone
  obtain ⟨-, rest', hitems', hrest', hsorted'⟩ := hother
  have hnames : (a.children.map Folder.segment).Perm (f.children.map Folder.segment) :=
    Folder.names_perm made_tidy (pass_tidy hr) (fun v => (pass_source hr v).symm) ha hf
  have hnames' : (b.children.map Folder.segment).Perm (f.children.map Folder.segment) :=
    Folder.names_perm made_tidy (pass_tidy hr)
      (fun v => (pass_source hr' v).symm.trans (pass_sources_perm hc h hr v).symm) hb hf
  have hleft := hrest.trans (remaining_perm (.refl _) hnames)
  have hleft' := hrest'.trans (remaining_perm h.symm hnames')
  rw [hitems, hitems', listed_perm hp h hc]
  refine ⟨((hleft.trans hleft'.symm).append_left _).append_right _, fun huntied => ?_⟩
  have hsame : rest = rest' :=
    eq_of_sorted huntied (fun item hi => (remaining_shown hp hc h hr hf hg hi).1)
      (fun item hi => (remaining_shown hp hc h hr hf hg hi).2) hleft hleft' hsorted hsorted'
  rw [hsame]

end Tree

end Sourcebook
