-- A tree is made by putting chapters, pages and mounts into it, one after the other. Everything
-- stands where it was put.
import Mathlib
import Sourcebook.Proofs.Contents.Here
import Sourcebook.Proofs.Contents.Lists
import Sourcebook.Proofs.Disk.Paths

namespace Sourcebook

open Folder (Every Tidy Plain Neat)

namespace Tree

/-- What is put into a tree, and the path of its folder. -/
inductive Addition where
  | chapter (c : Chapter) (path : String)
  | page (p : ReferencePage) (path : String)
  | mount (path : String) (dir : Path)

namespace Addition

def chapter? : Addition → Option Chapter
  | .chapter c _ => some c
  | _ => none

def page? : Addition → Option ReferencePage
  | .page p _ => some p
  | _ => none

/-- The way to the folder. -/
def way : Addition → List String
  | .chapter _ path => segments path
  | .page _ path => segments path
  | .mount path _ => segments path

/-- What becomes of the folder. -/
def effect : Addition → FolderInfo → FolderInfo
  | .chapter c _, i => if i.chapters.contains c.id then i else { i with chapters := i.chapters ++ [c.id] }
  | .page p _, i => { i with pages := i.pages ++ [p] }
  | .mount _ dir, i => { i with source := dir }

/-- The way to a chapter, when it is this one. -/
def home? (id : String) : Addition → Option (List String)
  | .chapter c path => if c.id = id then some (segments path) else none
  | _ => none

/-- The way to a page, when it has this key. -/
def pageHome? (key : String × String) : Addition → Option (List String)
  | .page p path => if p.key = key then some (segments path) else none
  | _ => none

end Addition

def add (t : Tree) : Addition → Tree
  | .chapter c path => t.addChapter c (segments path)
  | .page p path => t.addPage p (segments path)
  | .mount path dir => t.mount (segments path) dir

/-- The tree of additions in their order. -/
def made (source : Path) (metaName : String) (additions : List Addition) : Tree :=
  additions.foldl add (empty source metaName)

/-- The identifiers of the chapters among additions. -/
def chapterIds (additions : List Addition) : List String :=
  (additions.filterMap Addition.chapter?).map (·.id)

end Tree

/-! ## Changing one folder -/

namespace Folder

variable {g : FolderInfo → FolderInfo}

/-- A folder that is made on the way. -/
def fresh (segment : String) (source : Path) : FolderInfo := ⟨segment, segment, source, [], [], []⟩

theorem change_segment (hg : ∀ i, (g i).segment = i.segment) (way : List String) (f : Folder) :
    (change (·.withInfo g) way f).segment = f.segment := by
  obtain ⟨info, children⟩ := f
  cases way with
  | nil => exact hg info
  | cons segment way =>
    unfold change
    split <;> rfl

theorem change_info (segment : String) (way : List String) (f : Folder) :
    (change (·.withInfo g) (segment :: way) f).info = f.info := by
  unfold change
  split <;> rfl

/-- Changing one folder on a way either changes a folder inside that is there, or adds a new
one. -/
theorem change_cons (segment : String) (way : List String) (f : Folder) :
    (∃ before c after, f.children = before ++ c :: after ∧ c.segment = segment ∧
      ((∀ i, (g i).segment = i.segment) → change (·.withInfo g) (segment :: way) f =
        .mk f.info (before ++ change (·.withInfo g) way c :: after))) ∨
    ((∀ c ∈ f.children, c.segment ≠ segment) ∧ change (·.withInfo g) (segment :: way) f =
      .mk f.info (f.children ++
        [change (·.withInfo g) way (.mk (fresh segment (f.sourceInside segment)) [])])) := by
  cases hc : f.child? segment with
  | some c =>
    obtain ⟨rfl, before, after, he, hb⟩ := child?_split hc
    refine Or.inl ⟨before, c, after, he, rfl, fun hg => ?_⟩
    simp only [change, hc, he]
    rw [putChild_append (change_segment hg way c) hb]
  | none =>
    refine Or.inr ⟨?_, by simp only [change, hc]; rfl⟩
    intro c hmem hs
    have hnone := List.find?_eq_none.mp hc c hmem
    simp [hs] at hnone

/-- A property of every folder stays when it holds of the changed folder and of new ones. -/
theorem change_every {P : Folder → Prop} {N : String → Prop} (hg : ∀ i, (g i).segment = i.segment)
    (hhere : ∀ i cs, P (.mk i cs) → P (.mk (g i) cs))
    (habove : ∀ i before after c d, d.segment = c.segment →
      P (.mk i (before ++ c :: after)) → P (.mk i (before ++ d :: after)))
    (hnew : ∀ i cs c, N c.segment → (∀ b ∈ cs, b.segment ≠ c.segment) →
      P (.mk i cs) → P (.mk i (cs ++ [c])))
    (hfresh : ∀ segment source, P (.mk (fresh segment source) []))
    {way : List String} (hway : ∀ s ∈ way, N s) {f : Folder} (hf : Every P f) :
    Every P (change (·.withInfo g) way f) := by
  induction way generalizing f with
  | nil =>
    obtain ⟨info, children⟩ := f
    exact .mk (hhere _ _ hf.here) fun c hc => hf.child hc
  | cons segment way ih =>
    have hrest := fun s hs => hway s (List.mem_cons_of_mem _ hs)
    obtain ⟨info, children⟩ := f
    rcases change_cons (g := g) segment way (.mk info children) with
      ⟨before, c, after, he, -, hchange⟩ | ⟨hne, hchange⟩
    · simp only [children_mk] at he
      subst he
      rw [hchange hg]
      refine .mk (habove _ _ _ c _ (change_segment hg way c) hf.here) fun d hd => ?_
      rcases List.mem_append.mp hd with hd | hd
      · exact hf.child (by simp [hd])
      · rcases List.mem_cons.mp hd with rfl | hd
        · exact ih hrest (hf.child (by simp))
        · exact hf.child (by simp [hd])
    · rw [hchange]
      have hseg := change_segment hg way (.mk (fresh segment ((mk info children).sourceInside segment)) [])
      refine .mk (hnew _ _ _ ?_ ?_ hf.here) fun d hd => ?_
      · rw [hseg]
        exact hway segment List.mem_cons_self
      · rw [hseg]
        exact hne
      · rcases List.mem_append.mp hd with hd | hd
        · exact hf.child hd
        · rw [List.mem_singleton.mp hd]
          exact ih hrest (.mk (hfresh _ _) fun c hc => by cases hc)

theorem change_tidy (hg : ∀ i, (g i).segment = i.segment) {way : List String}
    (hway : ∀ s ∈ way, s ≠ "" ∧ '/' ∉ s.toList) {f : Folder} (hf : f.Tidy) :
    (change (·.withInfo g) way f).Tidy := by
  refine change_every hg (fun _ _ h => h) ?_ ?_ ?_ hway hf
  · intro i before after c d hs h
    exact h.of_segments (by simp [hs])
  · intro i cs c hname hne h
    refine ⟨?_, fun d hd => ?_⟩
    · rw [children_mk, List.map_append, List.map_singleton, List.nodup_append]
      refine ⟨h.1, List.nodup_singleton _, ?_⟩
      rintro s hs t ht rfl
      obtain ⟨b, hb, rfl⟩ := List.mem_map.mp hs
      exact hne b hb (List.mem_singleton.mp ht)
    · rcases List.mem_append.mp hd with hd | hd
      · exact h.2 d hd
      · rw [List.mem_singleton.mp hd]
        exact hname
  · exact fun _ _ => ⟨List.nodup_nil, fun _ h => nomatch h⟩

theorem change_plain (hg : ∀ i, (g i).segment = i.segment)
    (hplain : ∀ i cs, (Folder.mk i cs).Plain → (Folder.mk (g i) cs).Plain)
    {way : List String} (hway : ∀ s ∈ way, s ≠ "" ∧ '/' ∉ s.toList) {f : Folder}
    (hf : Every Plain f) : Every Plain (change (·.withInfo g) way f) :=
  change_every hg hplain (fun _ _ _ _ _ _ h => h) (fun _ _ _ _ _ h => h)
    (fun _ _ => ⟨fun _ h => (nomatch h), fun _ h => (nomatch h)⟩) hway hf

/-- What a change does not count stands where it stood. -/
theorem change_sites_same {n : FolderInfo → Nat} (hg : ∀ i, (g i).segment = i.segment)
    (hn : ∀ i, n (g i) = n i) (hfresh : ∀ segment source, n (fresh segment source) = 0)
    (way : List String) (f : Folder) : (change (·.withInfo g) way f).sites n = f.sites n := by
  induction way generalizing f with
  | nil =>
    obtain ⟨info, children⟩ := f
    simp [change, withInfo, sites_mk, hn]
  | cons segment way ih =>
    obtain ⟨info, children⟩ := f
    rcases change_cons (g := g) segment way (.mk info children) with
      ⟨before, c, after, he, -, hchange⟩ | ⟨-, hchange⟩
    · simp only [children_mk] at he
      subst he
      rw [hchange hg]
      simp only [sites_mk, info_mk, sitesOf_append, sitesOf, ih, change_segment hg]
    · rw [hchange]
      simp [sites_mk, sitesOf_append, sitesOf, ih, hfresh]

/-- What a change adds once stands at the end of the way. -/
theorem change_sites_more {n : FolderInfo → Nat} (hg : ∀ i, (g i).segment = i.segment)
    (hfresh : ∀ segment source, n (fresh segment source) = 0 ∧ n (g (fresh segment source)) = 1)
    (way : List String) {f : Folder} (hn : Every (fun f => n (g f.info) = n f.info + 1) f) :
    ((change (·.withInfo g) way f).sites n).Perm (way :: f.sites n) := by
  induction way generalizing f with
  | nil =>
    obtain ⟨info, children⟩ := f
    have hone : n (g info) = n info + 1 := hn.here
    simp [change, withInfo, sites_mk, hone, List.replicate_succ]
  | cons segment way ih =>
    obtain ⟨info, children⟩ := f
    rcases change_cons (g := g) segment way (.mk info children) with
      ⟨before, c, after, he, rfl, hchange⟩ | ⟨-, hchange⟩
    · simp only [children_mk] at he
      subst he
      rw [hchange hg]
      exact sites_inside_perm (change_segment hg way c) (ih (hn.child (by simp)))
    · rw [hchange]
      have hone := ih (f := .mk (fresh segment ((mk info children).sourceInside segment)) [])
        (.mk (by simp [hfresh]) fun c hc => by cases hc)
      have hnil : sites n (.mk (fresh segment ((mk info children).sourceInside segment)) []) = [] := by
        simp [sites_mk, sitesOf, hfresh]
      rw [hnil] at hone
      simp only [sites_mk, info_mk, children_mk, sitesOf_append, sitesOf, change_segment hg,
        List.perm_singleton.mp hone]
      rw [← List.append_assoc]
      exact List.perm_append_singleton _ _

end Folder

namespace Tree

/-! ## Trees that are made -/

variable {source : Path} {metaName : String} {additions : List Addition}

theorem made_snoc (a : Addition) :
    made source metaName (additions ++ [a]) = (made source metaName additions).add a := by
  simp [made]

theorem made_metaName : (made source metaName additions).metaName = metaName := by
  induction additions using List.reverseRecOn with
  | nil => rfl
  | append_singleton as a ih =>
    rw [made_snoc]
    cases a <;> exact ih

theorem add_root (t : Tree) (a : Addition) :
    (t.add a).root = t.root.change (·.withInfo a.effect) a.way := by
  cases a <;> rfl

theorem Addition.way_names (a : Addition) : ∀ s ∈ a.way, s ≠ "" ∧ '/' ∉ s.toList := by
  cases a <;> exact fun _ hs => Path.mem_partsOf hs

theorem Addition.effect_segment (a : Addition) (i : FolderInfo) :
    (a.effect i).segment = i.segment := by
  cases a with
  | chapter c path =>
    simp only [effect]
    split <;> rfl
  | page p path => rfl
  | mount path dir => rfl

/-- A folder has what it had, and the chapter that is added. -/
theorem Addition.mem_effect_chapters {a : Addition} {i : FolderInfo} {id : String}
    (h : id ∈ (a.effect i).chapters) : id ∈ i.chapters ∨ ∃ c, a.chapter? = some c ∧ id = c.id := by
  cases a with
  | chapter c path =>
    simp only [effect] at h
    split at h
    · exact Or.inl h
    · rcases List.mem_append.mp h with h | h
      · exact Or.inl h
      · exact Or.inr ⟨c, rfl, List.mem_singleton.mp h⟩
  | page p path => exact Or.inl h
  | mount path dir => exact Or.inl h

theorem Addition.effect_pages (a : Addition) (i : FolderInfo) :
    (a.effect i).pages = i.pages ++ a.page?.toList := by
  cases a with
  | chapter c path =>
    simp only [effect]
    split <;> simp [Addition.page?]
  | page p path => rfl
  | mount path dir => simp [effect, Addition.page?]

/-- Another chapter is not counted. -/
theorem Addition.effect_count {a : Addition} {id : String} (h : a.home? id = none) (i : FolderInfo) :
    (a.effect i).chapters.count id = i.chapters.count id := by
  cases a with
  | chapter c path =>
    have hne : c.id ≠ id := by simpa [home?] using h
    simp only [effect]
    split
    · rfl
    · simp [hne]
  | page p path => rfl
  | mount path dir => rfl

/-- Folders have different names, whatever was put into the tree. -/
theorem made_tidy : (made source metaName additions).root.Tidy := by
  induction additions using List.reverseRecOn with
  | nil => exact .mk ⟨List.nodup_nil, fun _ h => nomatch h⟩ fun _ h => nomatch h
  | append_singleton as a ih =>
    rw [made_snoc, add_root]
    exact Folder.change_tidy a.effect_segment a.way_names ih

theorem made_plain (hc : ∀ id ∈ chapterIds additions, '/' ∉ id.toList)
    (hp : ∀ p ∈ additions.filterMap Addition.page?, '/' ∉ p.id.toList) :
    Every Plain (made source metaName additions).root := by
  induction additions using List.reverseRecOn with
  | nil => exact .mk ⟨fun _ h => (nomatch h), fun _ h => (nomatch h)⟩ fun _ h => nomatch h
  | append_singleton as a ih =>
    simp only [chapterIds, List.filterMap_append, List.map_append, List.mem_append] at hc hp
    rw [made_snoc, add_root]
    refine Folder.change_plain a.effect_segment ?_ a.way_names
      (ih (fun id hid => hc id (Or.inl hid)) fun p hp' => hp p (Or.inl hp'))
    refine fun i cs h => ⟨fun id hid => ?_, fun p hp' => ?_⟩
    · rcases Addition.mem_effect_chapters hid with hid | ⟨c, hchapter, rfl⟩
      · exact h.1 id hid
      · exact hc c.id (Or.inr (by simp [hchapter]))
    · rw [Folder.info_mk, Addition.effect_pages, List.mem_append] at hp'
      rcases hp' with hp' | hp'
      · exact h.2 p hp'
      · exact hp p (Or.inr (by simp [Option.mem_toList.mp hp']))

theorem nodup_chapterIds_snoc {a : Addition} (h : (chapterIds (additions ++ [a])).Nodup) :
    (chapterIds additions).Nodup ∧ ∀ c, a.chapter? = some c → c.id ∉ chapterIds additions := by
  simp only [chapterIds, List.filterMap_append, List.map_append, List.nodup_append] at h
  refine ⟨h.1, fun c hc hmem => h.2.2 _ hmem c.id ?_ rfl⟩
  simp [hc]

theorem Addition.home?_eq_some {a : Addition} {id : String} {v : List String} :
    a.home? id = some v ↔ ∃ c path, a = .chapter c path ∧ c.id = id ∧ v = segments path := by
  cases a with
  | chapter c path =>
    simp only [home?, Option.ite_none_right_eq_some, Option.some.injEq]
    constructor
    · rintro ⟨hid, rfl⟩
      exact ⟨c, path, rfl, hid, rfl⟩
    · rintro ⟨_, _, h, hid, rfl⟩
      cases h
      exact ⟨hid, rfl⟩
  | page p path => simp [home?]
  | mount path dir => simp [home?]

theorem homes_of_not_mem {id : String} {as : List Addition} (h : id ∉ chapterIds as) :
    as.filterMap (Addition.home? id) = [] := by
  rw [List.filterMap_eq_nil_iff]
  intro a ha
  by_contra hne
  obtain ⟨v, hv⟩ := Option.ne_none_iff_exists'.mp hne
  obtain ⟨c, path, rfl, hid, -⟩ := Addition.home?_eq_some.mp hv
  exact h (List.mem_map.mpr ⟨c, List.mem_filterMap.mpr ⟨_, ha, rfl⟩, hid⟩)

/-- Every chapter stands where it was put, and nowhere else. -/
theorem made_homes (h : (chapterIds additions).Nodup) (id : String) :
    (made source metaName additions).root.homes id = additions.filterMap (Addition.home? id) := by
  induction additions using List.reverseRecOn with
  | nil => rfl
  | append_singleton as a ih =>
    obtain ⟨hn, hnew⟩ := nodup_chapterIds_snoc h
    have hih := ih hn
    rw [made_snoc, add_root, List.filterMap_append]
    cases hhome : a.home? id with
    | none =>
      rw [List.filterMap_cons_none hhome, List.filterMap_nil, List.append_nil, ← hih]
      exact Folder.change_sites_same a.effect_segment (fun i => Addition.effect_count hhome i)
        (fun _ _ => List.count_nil) _ _
    | some v =>
      obtain ⟨c, path, rfl, rfl, rfl⟩ := Addition.home?_eq_some.mp hhome
      rw [homes_of_not_mem (hnew c rfl)] at hih ⊢
      rw [List.filterMap_cons_some hhome, List.filterMap_nil, List.nil_append]
      have hone : ∀ i : FolderInfo, i.chapters.count c.id = 0 →
          ((Addition.chapter c path).effect i).chapters.count c.id = 1 := by
        intro i hi
        have hnot : c.id ∉ i.chapters := List.count_eq_zero.mp hi
        simp [Addition.effect, hnot, hi]
      have hmore := Folder.change_sites_more (n := (·.chapters.count c.id))
        (Addition.chapter c path).effect_segment (fun _ _ => ⟨List.count_nil, hone _ List.count_nil⟩)
        (segments path) ((Folder.every_of_sites hih).imp fun f hf => by rw [hone _ hf, hf])
      rw [show Folder.sites _ (made source metaName as).root = [] from hih] at hmore
      exact List.perm_singleton.mp hmore

theorem Addition.pageHome?_eq_some {a : Addition} {key : String × String} {v : List String} :
    a.pageHome? key = some v ↔ ∃ p path, a = .page p path ∧ p.key = key ∧ v = segments path := by
  cases a with
  | page p path =>
    simp only [pageHome?, Option.ite_none_right_eq_some, Option.some.injEq]
    constructor
    · rintro ⟨hp, rfl⟩
      exact ⟨p, path, rfl, hp, rfl⟩
    · rintro ⟨_, _, h, hp, rfl⟩
      cases h
      exact ⟨hp, rfl⟩
  | chapter c path => simp [pageHome?]
  | mount path dir => simp [pageHome?]

/-- Every page stands where it was put, as often as it was put. -/
theorem made_pages (key : String × String) :
    ((made source metaName additions).root.sites (FolderInfo.pageCount key)).Perm
      (additions.filterMap (Addition.pageHome? key)) := by
  induction additions using List.reverseRecOn with
  | nil => exact List.Perm.refl []
  | append_singleton as a ih =>
    rw [made_snoc, add_root, List.filterMap_append]
    have hcount : ∀ i : FolderInfo, (a.effect i).pageCount key =
        i.pageCount key + (a.page?.toList.map ReferencePage.key).count key := by
      intro i
      rw [FolderInfo.pageCount, Addition.effect_pages, List.map_append, List.count_append]
      rfl
    cases hhome : a.pageHome? key with
    | none =>
      have hnot : (a.page?.toList.map ReferencePage.key).count key = 0 := by
        cases a <;> simp_all [Addition.pageHome?, Addition.page?]
      rw [List.filterMap_cons_none hhome, List.filterMap_nil, List.append_nil]
      refine List.Perm.trans (List.Perm.of_eq ?_) ih
      exact Folder.change_sites_same a.effect_segment (fun i => by rw [hcount, hnot]; rfl)
        (fun _ _ => rfl) _ _
    | some v =>
      obtain ⟨p, path, rfl, rfl, rfl⟩ := Addition.pageHome?_eq_some.mp hhome
      have hone : ((Addition.page p path).page?.toList.map ReferencePage.key).count p.key = 1 := by
        simp [Addition.page?]
      rw [List.filterMap_cons_some hhome, List.filterMap_nil]
      refine List.Perm.trans ?_ ((ih.cons _).trans (List.perm_append_singleton _ _).symm)
      refine Folder.change_sites_more (Addition.page p path).effect_segment
        (fun _ _ => ⟨rfl, ?_⟩) _ (Folder.every_of_all (fun f => ?_) _)
      · rw [hcount, hone]
        rfl
      · rw [hcount, hone]

theorem mem_made_pages {key : String × String} {way : List String} :
    way ∈ (made source metaName additions).root.sites (FolderInfo.pageCount key) ↔
      ∃ p path, .page p path ∈ additions ∧ p.key = key ∧ segments path = way := by
  rw [(made_pages key).mem_iff, List.mem_filterMap]
  constructor
  · rintro ⟨a, ha, hhome⟩
    obtain ⟨p, path, rfl, hkey, rfl⟩ := Addition.pageHome?_eq_some.mp hhome
    exact ⟨p, path, ha, hkey, rfl⟩
  · rintro ⟨p, path, ha, hkey, rfl⟩
    exact ⟨_, ha, Addition.pageHome?_eq_some.mpr ⟨p, path, rfl, hkey, rfl⟩⟩

theorem add_chapters (t : Tree) (a : Addition) :
    (t.add a).chapters = a.chapter?.elim t.chapters (putChapter t.chapters) := by
  cases a <;> rfl

/-- Every chapter is in the tree once, in the order of the additions. -/
theorem made_chapters (h : (chapterIds additions).Nodup) :
    (made source metaName additions).chapters = additions.filterMap Addition.chapter? := by
  induction additions using List.reverseRecOn with
  | nil => rfl
  | append_singleton as a ih =>
    obtain ⟨hn, hnew⟩ := nodup_chapterIds_snoc h
    have hih := ih hn
    rw [made_snoc, add_chapters, hih, List.filterMap_append]
    cases hc : a.chapter? with
    | none => simp [hc]
    | some c =>
      have hnone : (as.filterMap Addition.chapter?).any (·.id == c.id) = false := by
        rw [List.any_eq_false]
        intro d hd he
        exact hnew c hc (List.mem_map.mpr ⟨d, hd, beq_iff_eq.mp he⟩)
      simp [putChapter, hnone, hc]

end Tree

end Sourcebook
