-- What the folders of a run's tree hold, and which directories they stand for. Every page and
-- every folder that is shown comes from what was planted.
import Mathlib
import Sourcebook.Proofs.Contents.Mentioned
import Sourcebook.Proofs.Publish.Planting

namespace Sourcebook

open Folder (Every)

namespace Folder

/-- A thing that stands further down stands in every folder above, as that sees it. -/
theorem exists_above {f : Folder} (hf : f.Tidy) {n : FolderInfo → Nat} {way v : List String}
    (h : way ++ v ∈ f.sites n) : ∃ e, f.find? way = some e ∧ v ∈ e.sites n := by
  obtain ⟨g, hg, -⟩ := (mem_sites_iff hf).mp h
  rw [find?_append] at hg
  obtain ⟨e, he, -⟩ := Option.bind_eq_some_iff.mp hg
  exact ⟨e, he, (mem_sites_find? hf he).mp h⟩

end Folder

/-! ## Mounts -/

namespace Tree

/-- The folders that additions mount. -/
def Addition.mounted? : Addition → Option (List String × Path)
  | .mount path dir => some (segments path, dir)
  | _ => none

theorem mounts_foldl {additions : List Addition} (h : ∀ a ∈ additions, a.mounted? = none)
    (t : Tree) : (additions.foldl add t).mounts = t.mounts := by
  induction additions generalizing t with
  | nil => rfl
  | cons a as ih =>
    rw [List.foldl_cons, ih fun b hb => h b (List.mem_cons_of_mem _ hb)]
    have ha := h a List.mem_cons_self
    cases a with
    | chapter c path => rfl
    | page p path => rfl
    | mount path dir => cases ha

end Tree

namespace Publish

open Sourcebook.Tree (plot pathText)

variable {d : Disk} {s : Settings} {chapters : List Chapter} {pages : List ReferencePage}
  {tree : Tree}

/-- The folder of the reference is the only one that is mounted. -/
theorem mounts_planted (s : Settings) (chapters : List Chapter) (pages : List ReferencePage) :
    (planted s chapters pages).mounts =
      if pagesWithin s pages = [] then [] else [([ReferencePage.folder], s.apiDir)] := by
  have hchapters : ∀ t : Tree, (List.foldl Tree.add t
      (chapters.map fun c => .chapter c (pathText (plot chapters c)))).mounts = t.mounts := by
    refine fun t => Tree.mounts_foldl (fun a ha => ?_) t
    obtain ⟨c, -, rfl⟩ := List.mem_map.mp ha
    rfl
  have hpages : ∀ (t : Tree) (ps : List ReferencePage), (List.foldl Tree.add t
      (ps.map fun p => .page p (pathText p.way))).mounts = t.mounts := by
    refine fun t ps => Tree.mounts_foldl (fun a ha => ?_) t
    obtain ⟨p, -, rfl⟩ := List.mem_map.mp ha
    rfl
  unfold planted planting Tree.made
  rw [List.foldl_append]
  cases pagesWithin s pages with
  | nil => exact hchapters _
  | cons p ps =>
    simp only [reduceCtorEq, if_false]
    rw [List.foldl_cons, hpages]
    simp only [Tree.add, Tree.mount, hchapters]
    rfl

/-! ## What folders hold -/

theorem mem_planting_page {p : ReferencePage} {path : String} :
    .page p path ∈ planting s chapters pages ↔
      p ∈ pagesWithin s pages ∧ path = pathText p.way := by
  unfold planting
  cases pagesWithin s pages with
  | nil => simp
  | cons q qs =>
    simp only [List.mem_append, List.mem_map, reduceCtorEq, and_false, exists_false, false_or,
      List.mem_cons (a := Tree.Addition.page p path), Tree.Addition.page.injEq]
    constructor
    · rintro ⟨r, hr, rfl, rfl⟩
      exact ⟨hr, rfl⟩
    · rintro ⟨hp, rfl⟩
      exact ⟨p, hp, rfl, rfl⟩

theorem folder_prefix_way (p : ReferencePage) : [ReferencePage.folder] <+: p.way := ⟨_, rfl⟩

theorem segments_way (p : ReferencePage) : Tree.segments (pathText p.way) = p.way :=
  Tree.segments_pathText fun _ hn => ReferencePage.isPart_way hn

namespace Grown

theorem mounts (h : Grown d s chapters tree pages) : tree.mounts =
    if pagesWithin s pages = [] then [] else [([ReferencePage.folder], s.apiDir)] := by
  rw [← mounts_planted s chapters pages, h.arranged]
  exact congrArg (·.1.mounts) Tree.arrange_made

/-- Every page stands where it was planted, and no other page stands. -/
theorem page_sites (h : Grown d s chapters tree pages) (key : String × String)
    (way : List String) : way ∈ tree.root.sites (FolderInfo.pageCount key) ↔
      ∃ p ∈ pagesWithin s pages, p.key = key ∧ p.way = way := by
  rw [h.root, Tree.pass, Arrange.arrange_sites (Arrange.fixed_pageCount key), Tree.mem_made_pages]
  constructor
  · rintro ⟨p, path, ha, hkey, rfl⟩
    obtain ⟨hp, rfl⟩ := mem_planting_page.mp ha
    exact ⟨p, hp, hkey, (segments_way p).symm⟩
  · rintro ⟨p, hp, hkey, rfl⟩
    exact ⟨p, _, mem_planting_page.mpr ⟨hp, rfl⟩, hkey, segments_way p⟩

/-- Only pages of the reference are listed, and where they were planted. -/
theorem listed_page (h : Grown d s chapters tree pages) {way : List String} {f : Folder}
    (hf : tree.root.find? way = some f) {q : ReferencePage} (hq : .page q ∈ f.info.items) :
    ∃ p ∈ pagesWithin s pages, p.key = q.key ∧ p.way = way := by
  have hlists : Every (Arrange.ListsPages d s.metaName q.key) tree.root :=
    h.root ▸ Arrange.arrange_listsPages q.key Tree.made_tidy (Tree.pass_returns h.readable)
  have hhere := (Every.find? hlists hf).here
  refine (h.page_sites _ _).mp ((Folder.mem_sites_iff h.tidy).mpr ⟨f, hf, fun hzero => ?_⟩)
  have hnone : f.info.items.countP (Item.isPage q.key) = 0 := by
    rw [show _ = _ from hhere, hzero]
    split <;> rfl
  rw [List.countP_eq_zero] at hnone
  exact hnone _ hq (by simp [Item.isPage])

/-- A folder is not empty when it holds a chapter or a page, there or further down. -/
theorem held (h : Grown d s chapters tree pages) {way : List String} :
    (∃ f, tree.root.find? way = some f ∧ f.isEmpty = false) ↔
      (∃ c ∈ chapters, way <+: (stayOf d s chapters pages c).way) ∨
        ∃ p ∈ pagesWithin s pages, way <+: p.way := by
  constructor
  · rintro ⟨f, hf, he⟩
    rcases (Folder.isEmpty_eq_false (Every.find? h.tidy hf)).mp he with ⟨id, v, hv⟩ | ⟨key, v, hv⟩
    · obtain ⟨c, hc, -, hway⟩ := h.home ((Folder.mem_sites_find? h.tidy hf).mpr hv)
      exact Or.inl ⟨c, hc, hway ▸ List.prefix_append way v⟩
    · obtain ⟨p, hp, -, hway⟩ := (h.page_sites _ _).mp ((Folder.mem_sites_find? h.tidy hf).mpr hv)
      exact Or.inr ⟨p, hp, hway ▸ List.prefix_append way v⟩
  · rintro (⟨c, hc, v, hv⟩ | ⟨p, hp, v, hv⟩)
    · have hhome : way ++ v ∈ tree.root.homes c.id := by
        rw [(h.stands hc).1, hv]
        exact List.mem_singleton.mpr rfl
      obtain ⟨f, hf, hmem⟩ := Folder.exists_above h.tidy hhome
      exact ⟨f, hf, (Folder.isEmpty_eq_false (Every.find? h.tidy hf)).mpr (Or.inl ⟨_, v, hmem⟩)⟩
    · have hsite := (h.page_sites p.key (way ++ v)).mpr ⟨p, hp, rfl, hv.symm⟩
      obtain ⟨f, hf, hmem⟩ := Folder.exists_above h.tidy hsite
      exact ⟨f, hf, (Folder.isEmpty_eq_false (Every.find? h.tidy hf)).mpr (Or.inr ⟨_, v, hmem⟩)⟩

/-- A folder is shown when it holds a chapter or a page and nothing on its way is hidden. -/
theorem shown (h : Grown d s chapters tree pages) (way : List String) (segment : String) :
    (∃ m ∈ Outline.mentions [] tree.root, m.way = way ∧ m.item = .folder segment) ↔
      ((∃ c ∈ chapters, way ++ [segment] <+: (stayOf d s chapters pages c).way) ∨
        ∃ p ∈ pagesWithin s pages, way ++ [segment] <+: p.way) ∧
      (Arrange.rules d s.metaName (planted s chapters pages).root).hide (way ++ [segment]) =
        false := by
  have hlists : Every (Arrange.ListsFolders d s.metaName) tree.root :=
    h.root ▸ (Tree.pass_lists h.readable).2.1
  have hmentions := Outline.mentions_folder h.tidy hlists [] way segment
  rw [List.nil_append, h.held, h.rules] at hmentions
  exact hmentions

end Grown

/-! ## The directories of folders -/

namespace Grown

variable {way : List String}

/-- The mounted folder and the folders in it stand for directories of the reference. -/
theorem directory_within (h : Grown d s chapters tree pages) (hne : pagesWithin s pages ≠ [])
    (rest : List String) :
    (Outline.Places.of s tree).directory (ReferencePage.folder :: rest) =
      s.apiDir.join ⟨.none, rest⟩ := by
  have hunder : Outline.underMount [ReferencePage.folder] (ReferencePage.folder :: rest) = true := by
    simp [Outline.underMount]
  unfold Outline.Places.directory
  rw [show (Outline.Places.of s tree).mounts = tree.mounts from rfl, h.mounts, if_neg hne]
  simp only [List.foldl_cons, List.foldl_nil, hunder, if_true]
  rfl

/-- All other folders stand for directories of the pages. -/
theorem directory_without (h : Grown d s chapters tree pages)
    (hout : pagesWithin s pages = [] ∨ ¬ [ReferencePage.folder] <+: way) :
    (Outline.Places.of s tree).directory way = s.outDir.join ⟨.none, way⟩ := by
  unfold Outline.Places.directory
  rw [show (Outline.Places.of s tree).mounts = tree.mounts from rfl, h.mounts]
  by_cases hnil : pagesWithin s pages = []
  · rw [if_pos hnil]
    rfl
  · have hway := hout.resolve_left hnil
    have hunder : Outline.underMount [ReferencePage.folder] way = false := by
      unfold Outline.underMount
      rw [Bool.or_eq_false_iff, beq_eq_false_iff_ne, Bool.and_eq_false_iff]
      refine ⟨fun he => hway (he ▸ List.prefix_refl _), Or.inr ?_⟩
      rw [Bool.eq_false_iff, ne_eq, List.isPrefixOf_iff_prefix]
      exact hway
    rw [if_neg hnil]
    simp only [List.foldl_cons, List.foldl_nil, hunder, Bool.false_eq_true, if_false]
    rfl

/-- The names on the way to a folder that is not empty lead down. -/
theorem way_names (h : Grown d s chapters tree pages) (hd : d.Named) {f : Folder}
    (hf : tree.root.find? way = some f) (he : f.isEmpty = false) :
    ∀ n ∈ way, LeadsDown n ∧ IsPart n := by
  intro n hn
  rcases h.held.mp ⟨f, hf, he⟩ with ⟨c, hc, hway⟩ | ⟨p, hp, hway⟩
  · have hplot := (way_upward d s chapters pages c).mem (hway.mem hn)
    exact ⟨h.plot_leadsDown hc hplot, Tree.isPart_segments (Tree.mem_plot hplot)⟩
  · obtain ⟨warnings, hfound⟩ := h.found
    exact ⟨way_leadsDown hd hfound (mem_pagesWithin hp) n (hway.mem hn),
      ReferencePage.isPart_way (hway.mem hn)⟩

end Grown

end Publish

end Sourcebook
