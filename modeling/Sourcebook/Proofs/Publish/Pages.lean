-- Where pages are written: every page stands below the directory of the pages, whatever the
-- override files say.
import Mathlib
import Sourcebook.Publish
import Sourcebook.Proofs.Book.Declared
import Sourcebook.Proofs.Contents.Additions
import Sourcebook.Proofs.Contents.Kept

namespace Sourcebook

open Folder (Every)

/-! ## The ways of a tree -/

namespace Folder

/-- The names of the folders inside lead down. -/
def GoesDown (f : Folder) : Prop := ∀ c ∈ f.children, LeadsDown c.segment

theorem nodes_goDown {f : Folder} (hf : Every GoesDown f) {way : List String}
    (hway : ∀ s ∈ way, LeadsDown s) {n : List String × Folder} (hn : n ∈ f.nodes way) :
    ∀ s ∈ n.1, LeadsDown s := by
  induction f generalizing way with
  | mk info children ih =>
    rw [nodes, List.mem_cons, mem_nodesOf] at hn
    rcases hn with rfl | ⟨c, hc, hn⟩
    · exact hway
    · refine ih c hc (hf.child hc) (fun s hs => ?_) hn
      rcases List.mem_append.mp hs with hs | hs
      · exact hway s hs
      · rw [List.mem_singleton.mp hs]
        exact hf.here c hc

theorem change_goesDown {g : FolderInfo → FolderInfo} (hg : ∀ i, (g i).segment = i.segment)
    {way : List String} (hway : ∀ s ∈ way, LeadsDown s) {f : Folder} (hf : Every GoesDown f) :
    Every GoesDown (change (·.withInfo g) way f) := by
  refine change_every hg (fun _ _ h => h) ?_ ?_ (fun _ _ _ h => nomatch h) hway hf
  · intro i before after c d hs h e he
    rcases List.mem_append.mp he with he | he
    · exact h e (List.mem_append_left _ he)
    · rcases List.mem_cons.mp he with rfl | he
      · rw [hs]
        exact h c (by simp)
      · exact h e (List.mem_append_right _ (List.mem_cons_of_mem _ he))
  · intro i cs c hc _ h d hd
    rcases List.mem_append.mp hd with hd | hd
    · exact h d hd
    · rw [List.mem_singleton.mp hd]
      exact hc

end Folder

/-! ## The path of a page -/

/-- The page of the chapter has a name, in a folder whose way leads down. -/
def Chapter.Paged (c : Chapter) : Prop :=
  '/' ∉ c.id.toList ∧ ∃ way, (∀ s ∈ way, LeadsDown s) ∧ c.folder.getD "" = Tree.pathText way

theorem Chapter.Fresh.paged {c : Chapter} (h : c.Fresh) : c.Paged := by
  refine ⟨h.id, [], by simp, ?_⟩
  rw [h.folder]
  rfl

theorem kept_paged {way : List String} (hway : ∀ s ∈ way, LeadsDown s) :
    Arrange.Kept Chapter.Paged (Tree.pathText way) where
  title _ h := h
  folder h := ⟨h.1, way, hway, rfl⟩

namespace Tree

theorem pathText_getLast? {way : List String} (hway : ∀ s ∈ way, LeadsDown s) :
    (pathText way).toList.getLast? ≠ some '/' := by
  rw [show pathText way = "/".intercalate way from rfl, Path.intercalate_toList]
  rcases List.eq_nil_or_concat' way with rfl | ⟨front, last, rfl⟩
  · simp [Text.joinWith]
  · obtain ⟨hne, hslash, -⟩ := hway last (by simp)
    have hlast : last.toList.getLast? ≠ some '/' := fun h => hslash (List.mem_of_getLast? h)
    have hnil : last.toList ≠ [] := fun h => hne (String.toList_eq_nil_iff.mp h)
    rw [List.map_append, List.map_singleton]
    by_cases hfront : front = []
    · subst hfront
      simpa [Text.joinWith] using hlast
    · rw [Text.joinWith_snoc (by simpa using hfront), List.getLast?_append_of_ne_nil _ (by simp)]
      rw [List.getLast?_cons_of_ne_nil hnil]
      exact hlast

theorem leadsDown_pageName {id : String} (h : '/' ∉ id.toList) : LeadsDown (id ++ ".md") := by
  have hlist : (id ++ ".md").toList = id.toList ++ ['.', 'm', 'd'] := by
    rw [String.toList_append]
    rfl
  have hlast : (id ++ ".md").toList.getLast? = some 'd' := by
    rw [hlist]
    simp
  refine ⟨fun he => ?_, ?_, fun he => ?_⟩
  · rw [he] at hlast
    cases hlast
  · rw [hlist]
    simp [h]
  · rw [he] at hlast
    revert hlast
    decide

theorem pathText_ne_empty {way : List String} (hway : ∀ s ∈ way, LeadsDown s) (hne : way ≠ []) :
    pathText way ≠ "" := by
  cases way with
  | nil => exact absurd rfl hne
  | cons n rest =>
    intro he
    have hnil : (pathText (n :: rest)).toList = [] := by rw [he]; rfl
    rw [show pathText (n :: rest) = "/".intercalate (n :: rest) from rfl, Path.intercalate_toList]
      at hnil
    have hn : n.toList ≠ [] := fun h =>
      (hway n List.mem_cons_self).1 (String.toList_eq_nil_iff.mp h)
    cases rest with
    | nil => exact hn hnil
    | cons m ms => exact hn (List.append_eq_nil_iff.mp hnil).1

/-- The page of a chapter is named for it, in the folder of the chapter. -/
theorem pagePath_placed {c : Chapter} (hid : '/' ∉ c.id.toList) {way : List String}
    (hway : ∀ s ∈ way, LeadsDown s) (hfolder : c.folder.getD "" = pathText way) :
    pagePath c = "/".intercalate (way ++ [c.id ++ ".md"]) := by
  have hname := leadsDown_pageName hid
  have hhead : ((c.id ++ ".md").toList.head? == some '/') = false := by
    rw [beq_eq_false_iff_ne]
    exact fun he => hname.2.1 (List.mem_of_head? he)
  unfold pagePath
  rw [hfolder]
  simp only [hhead, Bool.false_or]
  by_cases hnil : way = []
  · subst hnil
    rfl
  · have hempty : (pathText way).isEmpty = false := by
      rw [Bool.eq_false_iff, ne_eq, String.isEmpty_iff]
      exact pathText_ne_empty hway hnil
    have hlast : ((pathText way).toList.getLast? == some '/') = false := by
      rw [beq_eq_false_iff_ne]
      exact pathText_getLast? hway
    simp only [hempty, hlast, Bool.false_eq_true, if_false]
    apply String.toList_injective
    rw [Path.intercalate_toList, List.map_append, List.map_singleton,
      Text.joinWith_snoc (by simpa using hnil), ← Path.intercalate_toList]
    simp [pathText]

/-- The path of a page is written with names that lead down. -/
theorem pagePath_eq {c : Chapter} (h : c.Paged) :
    ∃ names, (∀ n ∈ names, LeadsDown n) ∧ pagePath c = "/".intercalate names := by
  obtain ⟨hid, way, hway, hfolder⟩ := h
  refine ⟨way ++ [c.id ++ ".md"], fun n hn => ?_, pagePath_placed hid hway hfolder⟩
  rcases List.mem_append.mp hn with hn | hn
  · exact hway n hn
  · rw [List.mem_singleton.mp hn]
    exact leadsDown_pageName hid

end Tree

namespace Publish

variable {d : Disk} {s : Settings}

/-- The path of a page is relative and has no parent step. -/
theorem pagePath_relative {c : Chapter} (h : c.Paged) :
    (Path.ofString (Tree.pagePath c)).root = .none ∧ ".." ∉ (Path.ofString (Tree.pagePath c)).parts := by
  obtain ⟨names, hnames, hpath⟩ := Tree.pagePath_eq h
  rw [hpath]
  refine ⟨Path.rootOf_intercalate hnames, fun hp => ?_⟩
  have hmem := Path.mem_of_mem_partsOf_intercalate (fun n hn => (hnames n hn).2.1) hp
  exact (hnames _ hmem).2.2 rfl

/-- A page stands below the directory of the pages. -/
theorem pageOf_below (s : Settings) {c : Chapter} (h : c.Paged) :
    s.outDir.normal [] <+: (pageOf s c).normal [] := by
  obtain ⟨hroot, hup⟩ := pagePath_relative h
  unfold pageOf
  rw [Path.normal_join hroot hup]
  exact List.prefix_append _ _

/-! ## The tree of a run -/

/-- A tree whose folders lead down, and whose chapters have names for their pages. -/
structure Sound (t : Tree) : Prop where
  root : Every Folder.GoesDown t.root
  chapters : ∀ c ∈ t.chapters, c.Paged

theorem sound_addChapter {t : Tree} (ht : Sound t) {c : Chapter} (hc : c.Paged)
    {way : List String} (hway : ∀ n ∈ way, LeadsDown n) : Sound (t.addChapter c way) where
  root := Folder.change_goesDown (by intro i; split <;> rfl) hway ht.root
  chapters := by
    intro e he
    simp only [Tree.addChapter, Tree.putChapter] at he
    split at he
    · obtain ⟨e', he', rfl⟩ := List.mem_map.mp he
      split
      · exact hc
      · exact ht.chapters e' he'
    · rcases List.mem_append.mp he with he | he
      · exact ht.chapters e he
      · rw [List.mem_singleton.mp he]
        exact hc

theorem sound_addChapters {chapters : List Chapter} (h : ∀ c ∈ chapters, c.Fresh) (depth : Nat)
    {t : Tree} (ht : Sound t) : Sound (chapters.foldl
      (fun t c => t.addChapter c ((Tree.segments c.sourceDir).drop depth)) t) := by
  induction chapters generalizing t with
  | nil => exact ht
  | cons c rest ih =>
    have hc := h c List.mem_cons_self
    refine ih (fun e he => h e (List.mem_cons_of_mem _ he)) (sound_addChapter ht hc.paged ?_)
    exact fun n hn => hc.dir n (List.mem_of_mem_drop hn)

theorem sound_ofChapters (root : Path) (metaName : String) {chapters : List Chapter}
    (h : ∀ c ∈ chapters, c.Fresh) : Sound (Tree.ofChapters root metaName chapters) :=
  sound_addChapters h _
    ⟨.mk (fun _ hc => nomatch hc) (fun _ hc => nomatch hc), fun _ hc => nomatch hc⟩

/-- A reference page is a file that was found below its directory, by names that stand on the
disk. -/
theorem mem_collect {dir : Path} {pages : List ReferencePage} {warnings : List String}
    (h : ReferencePage.collect d dir = .ok (pages, warnings)) {p : ReferencePage} (hp : p ∈ pages) :
    ∃ spelled, p = .ofPath ("/".intercalate spelled) ∧
      (∀ n ∈ spelled, ∃ x ∈ d.entries, n ∈ x.1) ∧
      d.isFile (Glob.placed (dir.normal []) spelled) = .ok true := by
  unfold ReferencePage.collect at h
  obtain ⟨there, -, h⟩ := bind_ok h
  split at h
  · cases h
    cases hp
  · obtain ⟨paths, hpaths, h⟩ := bind_ok h
    split at h
    · cases h
      cases hp
    · cases h
      obtain ⟨path, hpath, rfl⟩ := List.mem_map.mp hp
      have hfound : path ∈ paths := by simpa using hpath
      unfold ReferencePage.pathsBelow at hpaths
      obtain ⟨all, hall, hpaths⟩ := bind_ok hpaths
      obtain ⟨kept, hkept, hpaths⟩ := bind_ok hpaths
      cases hpaths
      obtain ⟨spelled, hspelled, rfl⟩ := List.mem_map.mp hfound
      obtain ⟨hin, htest⟩ := ((filterM_ok hkept).2 spelled).mp hspelled
      refine ⟨spelled, rfl, fun n hn => ?_, ?_⟩
      · rcases Glob.mem_of_run hall hin hn with hn | hn
        · exact hn
        · simp [ReferencePage.pattern] at hn
      · unfold ReferencePage.isPage at htest
        obtain ⟨isFile, hfile, htest⟩ := bind_ok htest
        rw [Path.normal_eq]
        cases isFile with
        | true => exact hfile
        | false => cases htest

/-- The folders of reference pages that were found lead down. -/
theorem way_leadsDown (hd : d.Named) {dir : Path} {pages : List ReferencePage}
    {warnings : List String} (h : ReferencePage.collect d dir = .ok (pages, warnings))
    {p : ReferencePage} (hp : p ∈ pages) : ∀ n ∈ p.way, LeadsDown n := by
  obtain ⟨spelled, rfl, hnames, -⟩ := mem_collect h hp
  have hnamed : ∀ n ∈ spelled, n ≠ ".." ∧ '/' ∉ n.toList := fun n hn => by
    obtain ⟨x, hx, hn⟩ := hnames n hn
    exact hd x hx n hn
  intro n hn
  rcases List.mem_cons.mp hn with rfl | hn
  · exact ⟨by decide, by decide, by decide⟩
  · have hpart := List.mem_of_mem_dropLast hn
    have hmem := Path.mem_of_mem_partsOf_intercalate (fun m hm => (hnamed m hm).2) hpart
    exact ⟨(Path.mem_partsOf hpart).1, (Path.mem_partsOf hpart).2, (hnamed n hmem).1⟩

theorem sound_attach {t : Tree} (ht : Sound t) {dir : Path} {pages : List ReferencePage}
    (h : ∀ p ∈ pages, ∀ n ∈ p.way, LeadsDown n) : Sound (ReferencePage.attach t dir pages) := by
  have hpages : ∀ {ps : List ReferencePage} {t : Tree}, Sound t →
      (∀ p ∈ ps, ∀ n ∈ p.way, LeadsDown n) →
      Sound (ps.foldl (fun t p => t.addPage p p.way) t) := by
    intro ps
    induction ps with
    | nil => exact fun ht _ => ht
    | cons p rest ih =>
      intro t ht h
      refine ih ⟨?_, ht.chapters⟩ fun q hq => h q (List.mem_cons_of_mem _ hq)
      exact Folder.change_goesDown (g := fun i => { i with pages := i.pages ++ [p] }) (fun _ => rfl)
        (h p List.mem_cons_self) ht.root
  unfold ReferencePage.attach
  split
  · exact ht
  · refine hpages ⟨?_, ht.chapters⟩ h
    refine Folder.change_goesDown (g := fun i => { i with source := dir }) (fun _ => rfl)
      (fun n hn => ?_) ht.root
    rw [List.mem_singleton.mp hn]
    exact ⟨by decide, by decide, by decide⟩

theorem treeOf_paged (hd : d.Named) {chapters : List Chapter} (hc : ∀ c ∈ chapters, c.Fresh)
    {tree : Tree} {pages : List ReferencePage} (h : (treeOf d s chapters).1 = .ok (tree, pages)) :
    ∀ c ∈ tree.chapters, c.Paged := by
  unfold treeOf at h
  dsimp only at h
  split at h
  · cases h
  · next found warnings hfound =>
    have hmade := sound_ofChapters (Path.ofLocation s.root) s.metaName hc
    have hready : Sound (if s.apiInTree then ReferencePage.attach
        (Tree.ofChapters (Path.ofLocation s.root) s.metaName chapters) s.apiDir found
        else Tree.ofChapters (Path.ofLocation s.root) s.metaName chapters) := by
      split
      · exact sound_attach hmade fun p hp => way_leadsDown hd hfound hp
      · exact hmade
    generalize (if s.apiInTree then _ else _) = t at h hready
    have hkept : (Arrange.arrange d t.metaName [] ⟨t.chapters, [], none⟩ t.root).1.All
        Chapter.Paged :=
      Arrange.arrange_kept (fun n hn => kept_paged (Folder.nodes_goDown hready.root (by simp) hn))
        hready.chapters
    dsimp only at h
    split at h
    · cases h
    · cases h
      exact hkept

theorem finished_paged {tree : Tree} {chapters : List Chapter} (ht : ∀ c ∈ tree.chapters, c.Paged)
    (hc : ∀ c ∈ chapters, c.Fresh) : ∀ c ∈ finished tree chapters, c.Paged := by
  intro c hmem
  obtain ⟨e, he, rfl⟩ := List.mem_map.mp hmem
  cases hfind : tree.chapter? e.id with
  | none => exact (hc e he).paged
  | some f => exact ht f (List.mem_of_find?_eq_some hfind)

end Publish

end Sourcebook
