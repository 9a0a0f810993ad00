-- What a run looks up: its sources, the files that they include, the reference pages and the
-- override files. In front of a twin of the disk a run sees the same.
import Mathlib
import Sourcebook.Proofs.Book.Rereading
import Sourcebook.Proofs.Contents.DeadKeys
import Sourcebook.Proofs.Publish.Planting

namespace Sourcebook

open Disk (Twins Aloof)

/-! ## Reference pages -/

namespace Glob

variable {d : Disk} {root : Location} {rest : List GlobPart} {found : List (List String)}

theorem nodup_run (h : run d root (.anyDepth :: rest) = .ok found) : found.Nodup := by
  unfold run at h
  split at h
  · rw [select] at h
    obtain ⟨all, -, rfl⟩ := map_ok h
    exact nodup_eraseDups all
  · cases h
    exact List.nodup_nil

theorem nodup_find {keep : List String → Bool} (h : find d root (.anyDepth :: rest) keep = .ok found) :
    found.Nodup := by
  obtain ⟨all, hall, hkept⟩ := bind_ok h
  exact (nodup_run hall).sublist (filterM_ok hkept).1

end Glob

namespace ReferencePage

variable {d d' : Disk} {dir : Path} {T : Location → Prop}

/-- A path that ends in the name of a page of its own. -/
def counts (spelled : List String) : Bool := !skipped.contains (spelled.getLastD "")

/-- What the reference pages rest on: their directory, and the pages in it. -/
def RestsOn (d : Disk) (dir p : Path) : Prop :=
  p = dir ∨ Glob.RestsOn d (dir.normal []) pattern counts p

theorem pathsBelow_eq (d : Disk) (l : Location) :
    pathsBelow d l = (Glob.find d l pattern counts).map (·.map ("/".intercalate ·)) := by
  unfold pathsBelow Glob.find
  cases Glob.run d l pattern with
  | error t => rfl
  | ok all =>
    show (all.filterM (isPage d l) >>= _) = Except.map _ (all.filterM (isPage d l))
    cases all.filterM (isPage d l) <;> rfl

/-- On a twin the same reference pages are found, if what they rest on is aloof. -/
theorem collect_again (h : Twins T d d') (hd : d.Listed) (hd' : d'.Listed)
    (hleft : ∀ p, RestsOn d dir p → Aloof T p) (hright : ∀ p, RestsOn d' dir p → Aloof T p)
    {found : List ReferencePage × List String} (hc : collect d dir = .ok found) :
    collect d' dir = .ok found := by
  have hdir : Aloof T dir := hleft dir (Or.inl rfl)
  have hisDir : d'.isDir dir = d.isDir dir := Disk.isDir_congr (h.find? hdir)
  unfold collect at hc ⊢
  rw [hisDir]
  obtain ⟨there, hthere, hc⟩ := bind_ok hc
  rw [hthere]
  show (if (!there) = true then _ else _) = _
  split
  · next hmissing =>
    rw [if_pos hmissing] at hc
    exact hc
  · next hstands =>
    rw [if_neg hstands] at hc
    obtain ⟨paths, hpaths, hc⟩ := bind_ok hc
    rw [← Path.normal_eq dir, pathsBelow_eq] at hpaths
    obtain ⟨names, hnames, rfl⟩ := map_ok hpaths
    have hroot : d'.isDirAt (dir.normal []) = d.isDirAt (dir.normal []) := by
      unfold Disk.isDirAt
      rw [h.same _ hdir.place]
    obtain ⟨names', hnames', hsame⟩ := Glob.find_again h hd hd' hroot
      (fun p hp => hleft p (Or.inr hp)) (fun p hp => hright p (Or.inr hp)) hnames
    have hperm : names'.Perm names :=
      (List.perm_ext_iff_of_nodup (Glob.nodup_find hnames') (Glob.nodup_find hnames)).mpr hsame
    rw [← Path.normal_eq dir, pathsBelow_eq, hnames']
    have hsort := sort_congr (hperm.map ("/".intercalate ·))
    simp only [Except.map, bind, Except.bind] at hc ⊢
    rw [hsort]
    exact hc

end ReferencePage

/-! ## Runs -/

namespace Publish

variable {d d' : Disk} {s : Settings} {T : Location → Prop} {chapters : List Chapter}
  {pages : List ReferencePage} {warnings : List String}

/-- The paths at which the folders of a tree look for their override files. -/
def overridePaths (t : Tree) : List Path :=
  t.nodes.map fun n => n.2.info.source.join (Path.ofString t.metaName)

/-- A path that a run looks up. A pattern looks up what it finds, and what it cannot look for. -/
inductive LooksUp (d : Disk) (s : Settings) : Path → Prop
  | book {p : Path} : Book.RestsOn d s p → LooksUp d s p
  | reference {p : Path} : ReferencePage.RestsOn d s.apiDir p → LooksUp d s p
  | override {p : Path} {files : List Location} {desk : Desk} {pages : List ReferencePage}
      {warnings : List String} : Book.ofProject d s = .ok (files, desk, none) →
      ReferencePage.collect d s.apiDir = .ok (pages, warnings) →
      p ∈ overridePaths (planted s desk.book.ordered pages) → LooksUp d s p

/-- Where no pattern has a parent step, a run looks up its files, what they include, the directory of
the reference with the pages in it, and the override files. -/
theorem LooksUp.plain (hd : d.Named) (hbelow : ∀ pattern ∈ s.selected, StaysBelow pattern)
    {files : List Location} {desk : Desk} (hbook : Book.ofProject d s = .ok (files, desk, none))
    (hc : ReferencePage.collect d s.apiDir = .ok (pages, warnings)) {p : Path} (h : LooksUp d s p) :
    (∃ l ∈ files, p = Path.ofLocation l ∨ p ∈ Desk.lookups d s files l) ∨
      ReferencePage.RestsOn d s.apiDir p ∨ p ∈ overridePaths (planted s desk.book.ordered pages) := by
  have hfiles : Discovery.files d s = .ok files := by
    rw [Book.ofProject_eq] at hbook
    obtain ⟨found, hfound, hread⟩ := map_ok hbook
    rw [hfound, (Prod.mk.inj hread).1]
  cases h with
  | book hp =>
    rcases hp with hp | ⟨found, hfound, l, hl, hp⟩
    · obtain ⟨l, hl, rfl⟩ := hp.plain hd hbelow hfiles
      exact Or.inl ⟨l, hl, Or.inl rfl⟩
    · obtain rfl : files = found := Except.ok.inj (hfiles.symm.trans hfound)
      exact Or.inl ⟨l, hl, Or.inr hp⟩
  | reference hp => exact Or.inr (Or.inl hp)
  | override hbook' hc' hp =>
    rw [hbook] at hbook'
    cases hbook'
    rw [hc] at hc'
    cases hc'
    exact Or.inr (Or.inr hp)

/-- Trees are arranged alike where their folders find the same override files. -/
theorem treeOf_again (hc : ReferencePage.collect d s.apiDir = .ok (pages, warnings))
    (hc' : ReferencePage.collect d' s.apiDir = .ok (pages, warnings))
    (h : ∀ p ∈ overridePaths (planted s chapters pages), d'.find? p = d.find? p) :
    treeOf d' s chapters = treeOf d s chapters := by
  have hread : ∀ v g, (planted s chapters pages).root.find? v = some g →
      Arrange.fileAt d' (planted s chapters pages).metaName g.info =
        Arrange.fileAt d (planted s chapters pages).metaName g.info := by
    intro v g hg
    have hmem : (v, g) ∈ (planted s chapters pages).nodes := Folder.mem_nodes_of_find? hg []
    unfold Arrange.fileAt OverrideFile.read
    rw [h _ (List.mem_map.mpr ⟨(v, g), hmem, rfl⟩)]
  have hsame : (planted s chapters pages).arrange d' = (planted s chapters pages).arrange d := by
    have htidy : (planted s chapters pages).root.Tidy := Tree.made_tidy
    unfold Tree.arrange
    rw [Arrange.arrange_congr htidy hread]
  unfold treeOf
  rw [hc, hc']
  dsimp only
  rw [← planted_eq, hsame]

/-- In front of a twin of the disk a run reads the same book and arranges the same tree, if all that
both runs look up is aloof. -/
theorem sees_again (h : Twins T d d') (hd : d.Listed) (hd' : d'.Listed) (hroot : ".." ∉ s.root)
    (hdir : d'.isDirAt s.root = d.isDirAt s.root) (hleft : ∀ p, LooksUp d s p → Aloof T p)
    (hright : ∀ p, LooksUp d' s p → Aloof T p) {files : List Location} {desk : Desk} {tree : Tree}
    (hb : Book.ofProject d s = .ok (files, desk, none))
    (ht : (treeOf d s desk.book.ordered).1 = .ok (tree, pages)) :
    Book.ofProject d' s = Book.ofProject d s ∧
      treeOf d' s desk.book.ordered = treeOf d s desk.book.ordered := by
  obtain ⟨listed, hlisted, -⟩ := bind_ok hb
  obtain ⟨warnings, hc⟩ := found_of_treeOf ht
  have hc' := ReferencePage.collect_again h hd hd' (fun p hp => hleft p (.reference hp))
    (fun p hp => hright p (.reference hp)) hc
  exact ⟨Book.ofProject_again h hd hd' hroot hdir (fun p hp => hleft p (.book hp))
      (fun p hp => hright p (.book hp)) hlisted,
    treeOf_again hc hc' fun p hp => h.find? (hleft p (.override hb hc hp))⟩

end Publish

end Sourcebook
