-- What folders list after the tree was arranged: every folder inside that is not empty and every
-- page, unless the override file hides its name.
import Mathlib
import Sourcebook.Proofs.Contents.Arranged

namespace Sourcebook

open Folder (Every Tidy Fades Steady)

/-- What tells a page from others. Its title may change. -/
def ReferencePage.key (p : ReferencePage) : String × String := (p.id, p.path)

/-- An item is a page of a key. -/
def Item.isPage (key : String × String) : Item → Bool
  | .page p => p.key == key
  | _ => false

/-- The pages of a key in a folder. -/
def FolderInfo.pageCount (key : String × String) (i : FolderInfo) : Nat :=
  (i.pages.map ReferencePage.key).count key

namespace Arrange

theorem kind_folder (segment : String) : Kind (· == .folder segment) where
  rename d title item := by cases item <;> rfl
  chapter _ := rfl
  separator _ := rfl

theorem kind_page (key : String × String) : Kind (Item.isPage key) where
  rename d title item := by cases item <;> rfl
  chapter _ := rfl
  separator _ := rfl

theorem fixed_pageCount (key : String × String) : Fixed (FolderInfo.pageCount key) :=
  ⟨fun _ _ _ hpages => congrArg (List.count key) hpages⟩

variable {disk : Disk} {metaName : String} {way : List String} {w : Work} {info : FolderInfo}
  {children : List Folder} {file : OverrideFile}

/-! ## Folders -/

/-- Folders that are not empty are listed once, unless they are hidden. -/
def ListsFolders (disk : Disk) (metaName : String) (f : Folder) : Prop :=
  ∀ c ∈ f.children, c.isEmpty = false →
    f.info.items.count (.folder c.segment) =
      if Override.hides (entriesAt disk metaName f.info) c.segment then 0 else 1

/-- Every page of a key is listed, unless its name is hidden. -/
def ListsPages (disk : Disk) (metaName : String) (key : String × String) (f : Folder) : Prop :=
  f.info.items.countP (Item.isPage key) =
    if Override.hides (entriesAt disk metaName f.info) key.1 then 0
    else f.info.pageCount key

theorem steady_listsFolders : Steady (ListsFolders disk metaName) where
  without id h c hc he := by
    have hcount := h c hc he
    refine Eq.trans ?_ hcount
    exact List.count_filter (by rfl)
  inside hf h d hd he := by
    obtain ⟨c, hc, hs, hempty⟩ := exists_of_mem_right hf hd
    have hne : c.isEmpty = false := by
      rw [Bool.eq_false_iff]
      intro hce
      rw [hempty hce] at he
      cases he
    rw [hs]
    exact h c hc hne
  label _ h := h

theorem steady_listsPages (key : String × String) : Steady (ListsPages disk metaName key) where
  without {info children} id h := by
    refine Eq.trans ?_ h
    simp only [FolderInfo.without, Folder.info_mk]
    rw [List.countP_filter]
    refine List.countP_congr fun item _ => ?_
    cases item <;> simp [Item.isPage]
  inside _ h := h
  label _ h := h

/-- Among folders with different names one has a name. -/
theorem countP_segment {cs : List Folder} (h : (cs.map Folder.segment).Nodup) {c : Folder}
    (hc : c ∈ cs) (he : c.isEmpty = false) (b : String → Bool) :
    (cs.filter (!·.isEmpty)).countP (fun d => Item.folder d.segment == .folder c.segment && b d.segment) =
      if b c.segment then 1 else 0 := by
  obtain ⟨before, after, rfl⟩ := List.append_of_mem hc
  rw [List.map_append, List.map_cons] at h
  have hnodup := List.perm_middle.nodup_iff.mp h
  rw [List.nodup_cons, ← List.map_append] at hnodup
  have hnone : ∀ ds : List Folder, (∀ d ∈ ds, d ∈ before ++ after) →
      (ds.filter (!·.isEmpty)).countP
        (fun d => Item.folder d.segment == .folder c.segment && b d.segment) = 0 := by
    intro ds hds
    rw [List.countP_eq_zero]
    intro d hd hp
    rw [Bool.and_eq_true, beq_iff_eq] at hp
    have hmem := List.mem_map_of_mem (f := Folder.segment) (hds d (List.mem_filter.mp hd).1)
    exact hnodup.1 (Item.folder.inj hp.1 ▸ hmem)
  rw [List.filter_append, List.countP_append, List.filter_cons_of_pos (by simp [he]),
    List.countP_cons, hnone before fun d hd => List.mem_append_left _ hd,
    hnone after fun d hd => List.mem_append_right _ hd]
  simp

theorem arrangeBy_entries (file : OverrideFile) :
    entriesAt disk metaName (arrangeBy file metaName way w info children).2.info =
      entriesAt disk metaName info :=
  entriesAt_source (arrangeBy_info file metaName way w info children).2.1

theorem arrangeBy_listsFolders (hn : (file.entries.map (·.1)).Nodup)
    (hentries : entriesAt disk metaName info = file.entries) (h : (Folder.mk info children).Neat) :
    ListsFolders disk metaName (arrangeBy file metaName way w info children).2 := by
  intro c hc he
  rw [arrangeBy_entries, hentries]
  set d := Draft.done file metaName (Tree.pathText way) w info children with hd
  have hfades : List.Forall₂ Fades children d.children :=
    (lasting_fades children).keys (d := Draft.start file (Tree.pathText way) w info children)
      (Folder.fades_same children)
  obtain ⟨b, hb, hs, hempty⟩ := exists_of_mem_right hfades hc
  have hbe : b.isEmpty = false := by
    rw [Bool.eq_false_iff]
    intro hbe
    rw [hempty hbe] at he
    cases he
  -- The folder is there and is not empty, so its item stays in the list.
  have hdrained : ∀ item, (item == Item.folder c.segment) = true →
      isDrained d.children item = false := by
    intro item hitem
    have hnodup : (d.children.map Folder.segment).Nodup := by
      rw [Folder.fades_segments hfades]
      exact h.1
    rw [beq_iff_eq.mp hitem, isDrained, Folder.find?_segment hnodup hc]
    exact he
  have hlisted := countP_listed (kind_folder c.segment) hn rfl rfl hdrained
  refine Eq.trans hlisted ?_
  have hfolder := countP_segment (show (children.map Folder.segment).Nodup from h.1) hb hbe fun name =>
    !Override.hides file.entries name
  have hchapters : info.chapters.countP
      (fun id => Item.chapter id == .folder b.segment && !Override.hides file.entries id) = 0 := by
    simp
  have hpages : info.pages.countP
      (fun p => Item.page p == .folder b.segment && !Override.hides file.entries p.id) = 0 := by
    simp
  rw [countP_available, hs]
  dsimp only
  rw [hfolder, hchapters, hpages]
  cases Override.hides file.entries b.segment <;> rfl

theorem arrangeBy_listsPages (key : String × String) (hn : (file.entries.map (·.1)).Nodup)
    (hentries : entriesAt disk metaName info = file.entries) :
    ListsPages disk metaName key (arrangeBy file metaName way w info children).2 := by
  have hpages := (arrangeBy_info file metaName way w info children).2.2
  unfold ListsPages
  rw [arrangeBy_entries, hentries, FolderInfo.pageCount,
    show List.map ReferencePage.key _ = _ from hpages]
  refine Eq.trans (countP_listed (d := Draft.start file (Tree.pathText way) w info children)
    (kind_page key) hn rfl rfl (by intro item h; cases item <;> first | rfl | cases h)) ?_
  rw [countP_available]
  have hfolders : (children.filter (!·.isEmpty)).countP (fun c =>
      Item.isPage key (.folder c.segment) && !Override.hides file.entries c.segment) = 0 := by
    simp [Item.isPage]
  have hchapters : info.chapters.countP (fun id =>
      Item.isPage key (.chapter id) && !Override.hides file.entries id) = 0 := by
    simp [Item.isPage]
  rw [hfolders, hchapters, Nat.zero_add, List.count, List.countP_map]
  have hname : ∀ p : ReferencePage, Item.isPage key (.page p) = true → p.id = key.1 := by
    intro p h
    rw [← beq_iff_eq.mp h]
    rfl
  split
  · next hh =>
    rw [List.countP_eq_zero]
    intro p _ hp
    rw [Bool.and_eq_true] at hp
    rw [hname p hp.1, hh] at hp
    cases hp.2
  · next hh =>
    refine List.countP_congr fun p _ => ?_
    rw [Bool.and_eq_true]
    constructor
    · exact And.left
    · intro hp
      have hid : p.id = key.1 := hname p hp
      exact ⟨hp, by simp [hid, hh]⟩

/-- After a tree was arranged, every folder lists the folders and the pages in it. -/
theorem arrange_listsFolders {f : Folder} (hf : f.Tidy)
    (hs : (arrange disk metaName way w f).1.stop = none) :
    Every (ListsFolders disk metaName) (arrange disk metaName way w f).2 :=
  arrange_every steady_listsFolders
    (fun hn he hneat hsegments => arrangeBy_listsFolders hn he (hneat.of_segments hsegments)) hf hs

theorem arrange_listsPages (key : String × String) {f : Folder} (hf : f.Tidy)
    (hs : (arrange disk metaName way w f).1.stop = none) :
    Every (ListsPages disk metaName key) (arrange disk metaName way w f).2 :=
  arrange_every (Q := Folder.Neat) (steady_listsPages key)
    (fun hn he _ _ => arrangeBy_listsPages key hn he) hf hs

end Arrange

end Sourcebook
