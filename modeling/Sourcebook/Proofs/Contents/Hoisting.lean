-- The laws of hoisting: where every chapter of an arranged tree stands, where its page belongs
-- and what its title is. A key that moves no chapter is reported, and does nothing else.
import Mathlib
import Sourcebook.Proofs.Contents.Additions
import Sourcebook.Proofs.Contents.DeadKeys

namespace Sourcebook

open Folder (Every Tidy Plain)

namespace Folder

/-- A walk over the tree meets a folder as often as its way is counted. -/
theorem nodes_sites (n : FolderInfo → Nat) (way : List String) (f : Folder) :
    (f.nodes way).flatMap (fun g => List.replicate (n g.2.info) g.1) = (f.sites n).map (way ++ ·) := by
  induction f generalizing way with
  | mk info children ih =>
    have hall : (nodesOf way children).flatMap (fun g => List.replicate (n g.2.info) g.1) =
        (sitesOf n children).map (way ++ ·) := by
      induction children with
      | nil => simp [nodesOf, sitesOf]
      | cons c cs ihcs =>
        simp only [nodesOf, sitesOf, List.flatMap_append, List.map_append, List.map_map]
        rw [ih c List.mem_cons_self, ihcs fun d hd => ih d (List.mem_cons_of_mem _ hd)]
        simp [Function.comp_def]
    simp only [nodes, List.flatMap_cons, hall, sites_mk, List.map_append, List.map_replicate,
      info_mk, List.append_nil]

end Folder

theorem filter_of_replicates {α β : Type} {k : α → Nat} {g : α → β} {p : α → Bool}
    (hp : ∀ a, p a = true ↔ k a ≠ 0) {l : List α} {b : β}
    (h : l.flatMap (fun a => List.replicate (k a) (g a)) = [b]) : (l.filter p).map g = [b] := by
  have hnil : ∀ l : List α, l.flatMap (fun a => List.replicate (k a) (g a)) = [] →
      l.filter p = [] := by
    intro l hl
    rw [List.filter_eq_nil_iff]
    intro a ha hpa
    have hzero := List.flatMap_eq_nil_iff.mp hl a ha
    exact (hp a).mp hpa (by simpa using hzero)
  induction l with
  | nil => simp at h
  | cons a l ih =>
    rw [List.flatMap_cons] at h
    rcases List.append_eq_singleton_iff.mp h with ⟨h1, h2⟩ | ⟨h1, h2⟩
    · have hzero : k a = 0 := by simpa using h1
      rw [List.filter_cons_of_neg (fun hpa => (hp a).mp hpa hzero)]
      exact ih h2
    · have hone : k a = 1 := by simpa using congrArg List.length h1
      rw [List.filter_cons_of_pos ((hp a).mpr (by omega)), hnil l h2]
      rw [hone] at h1
      simpa using h1

namespace Tree

/-- The ways to the folders that hold a chapter. -/
def holders (t : Tree) (id : String) : List (List String) :=
  (t.nodes.filter (·.2.info.chapters.contains id)).map (·.1)

theorem holders_of_homes {t : Tree} {id : String} {way : List String} (h : t.root.homes id = [way]) :
    t.holders id = [way] := by
  have hsites := Folder.nodes_sites (·.chapters.count id) [] t.root
  rw [show Folder.sites _ t.root = _ from h] at hsites
  unfold holders
  refine filter_of_replicates (k := fun g => g.2.info.chapters.count id) (fun g => ?_) hsites
  rw [List.contains_iff_mem, ← List.count_pos_iff, Nat.pos_iff_ne_zero]

/-- What the additions of a tree of a book are like: every chapter comes once and has no page yet,
and the names of chapters and pages have no slash. -/
structure Proper (additions : List Addition) : Prop where
  once : (chapterIds additions).Nodup
  chapters : ∀ id ∈ chapterIds additions, '/' ∉ id.toList
  pages : ∀ p ∈ additions.filterMap Addition.page?, '/' ∉ p.id.toList
  unplaced : ∀ c ∈ additions.filterMap Addition.chapter?, c.folder = none

variable {source : Path} {metaName : String} {additions : List Addition} {disk : Disk}

/-- A chapter has an identifier that is a name, and no page yet. -/
theorem Proper.of_mem (hp : Proper additions) {c : Chapter} {path : String}
    (h : .chapter c path ∈ additions) : '/' ∉ c.id.toList ∧ c.folder = none := by
  have hc : c ∈ additions.filterMap Addition.chapter? := List.mem_filterMap.mpr ⟨_, h, rfl⟩
  exact ⟨hp.chapters c.id (List.mem_map_of_mem hc), hp.unplaced c hc⟩

/-- A chapter is put into one folder. -/
theorem homes_of_mem (hp : Proper additions) {c : Chapter} {path : String}
    (h : .chapter c path ∈ additions) :
    additions.filterMap (Addition.home? c.id) = [segments path] := by
  have honce := hp.once
  obtain ⟨before, after, rfl⟩ := List.append_of_mem h
  have hids : chapterIds (before ++ .chapter c path :: after) =
      chapterIds before ++ c.id :: chapterIds after := by
    simp [chapterIds, Addition.chapter?]
  rw [hids, List.perm_middle.nodup_iff, List.nodup_cons, List.mem_append, not_or] at honce
  rw [List.filterMap_append, homes_of_not_mem honce.1.1,
    List.filterMap_cons_some (Addition.home?_eq_some.mpr ⟨c, path, rfl, rfl, rfl⟩),
    homes_of_not_mem honce.1.2]
  rfl

theorem home_of_mem (hp : Proper additions) {c : Chapter} {path : String}
    (h : .chapter c path ∈ additions) :
    (made source metaName additions).root.homes c.id = [segments path] := by
  rw [made_homes hp.once, homes_of_mem hp h]

theorem chapter?_of_mem (hp : Proper additions) {c : Chapter} {path : String}
    (h : .chapter c path ∈ additions) :
    (made source metaName additions).chapters.find? (·.id == c.id) = some c := by
  have hc : c ∈ additions.filterMap Addition.chapter? := List.mem_filterMap.mpr ⟨_, h, rfl⟩
  rw [made_chapters hp.once]
  exact find?_of_nodup hp.once hc

/-- The pass over a tree that is made, from its root. -/
def pass (source : Path) (metaName : String) (additions : List Addition) (disk : Disk) :
    Arrange.Work × Folder :=
  let t := made source metaName additions
  Arrange.arrange disk metaName [] ⟨t.chapters, [], none⟩ t.root

theorem arrange_made : (made source metaName additions).arrange disk =
    let a := pass source metaName additions disk
    ({ made source metaName additions with root := a.2, chapters := a.1.chapters },
      a.1.notices, a.1.stop) := by
  simp only [Tree.arrange, pass, made_metaName]

theorem pass_returns (hr : Arrange.Readable disk metaName (made source metaName additions).root) :
    (pass source metaName additions disk).1.stop = none :=
  Arrange.arrange_returns hr rfl

/-- Every chapter of an arranged tree stands where its walk up leads, and only there. It is listed
there unless it is hidden. Its page belongs there, and its keys give it its title. -/
theorem pass_stands (hp : Proper additions)
    (hr : Arrange.Readable disk metaName (made source metaName additions).root) {c : Chapter}
    {path : String} (h : .chapter c path ∈ additions) :
    let a := pass source metaName additions disk
    Arrange.Stands (a.2.homes c.id) (a.2.listings c.id) a.1 [] c
      (Stay.last (Arrange.rules disk metaName (made source metaName additions).root) c.id
        (segments path) c.title) := by
  obtain ⟨hid, hfolder⟩ := hp.of_mem h
  exact Arrange.arrange_stands hid hfolder made_tidy (made_plain hp.chapters hp.pages)
    (home_of_mem hp h) (chapter?_of_mem hp h) (pass_returns hr)

/-- No chapter stands at the address of a key when a folder has its turn. -/
theorem untaken_of_not_takes (hp : Proper additions) {spot : List String} {key : String}
    (h : ∀ c path, .chapter c path ∈ additions →
      ¬ Stay.takes (Arrange.rules disk metaName (made source metaName additions).root) c.id
        (segments path) c.title spot key) :
    Arrange.Untaken (Arrange.rules disk metaName (made source metaName additions).root) spot key
      (made source metaName additions).root ⟨(made source metaName additions).chapters, [], none⟩ := by
  by_cases hid : (Arrange.hoistKey key).2 ∈ chapterIds additions
  · obtain ⟨c, hc, he⟩ := List.mem_map.mp hid
    obtain ⟨a, ha, hac⟩ := List.mem_filterMap.mp hc
    cases a with
    | chapter d path =>
      cases hac
      exact .elsewhere he (home_of_mem hp ha) (chapter?_of_mem hp ha) (hp.unplaced c hc) (h c path ha)
    | page p path => cases hac
    | mount path dir => cases hac
  · refine .absent ?_
    rw [made_homes hp.once]
    exact homes_of_not_mem hid

/-- A chapter is hoisted by the folders above it, one after the other, exactly when they have a
key for the place where it stands by then. A key with slashes that moves no chapter only adds a
warning. -/
theorem chapters_stand_where_their_walk_up_leads (hp : Proper additions)
    (hr : Arrange.Readable disk metaName (made source metaName additions).root) :
    let t := made source metaName additions
    let rules := Arrange.rules disk metaName t.root
    (t.arrange disk).2.2 = none ∧
    (∀ c path, .chapter c path ∈ additions →
      let s := Stay.last rules c.id (segments path) c.title
      (t.arrange disk).1.holders c.id = [s.way] ∧
      (t.arrange disk).1.chapter? c.id =
        some { c with folder := some (pathText s.way), title := s.title }) ∧
    (∀ (other : Disk) (spot : List String) (f : Folder) (before after : List (String × Override))
        (key : String) (o : Override) (long short : OverrideFile),
      (spot, f) ∈ t.nodes →
      Arrange.Dropped before after key o long short →
      Arrange.fileAt other metaName f.info = .ok long →
      Arrange.fileAt disk metaName f.info = .ok short →
      (∀ n ∈ t.nodes, n.1 ≠ spot →
        Arrange.fileAt other metaName n.2.info = Arrange.fileAt disk metaName n.2.info) →
      (∀ c path, .chapter c path ∈ additions →
        ¬ Stay.takes rules c.id (segments path) c.title spot key) →
      (t.arrange other).1 = (t.arrange disk).1 ∧ (t.arrange other).2.2 = none ∧
      ∃ ns ms, (t.arrange disk).2.1 = ns ++ ms ∧ (t.arrange other).2.1 =
        ns ++ Notice.warning (Arrange.unknownText f.info.source metaName key) :: ms) := by
  intro t rules
  rw [show t.arrange disk = _ from arrange_made]
  refine ⟨pass_returns hr, fun c path h => ?_, ?_⟩
  · have hstands := pass_stands hp hr h
    exact ⟨holders_of_homes hstands.homes, hstands.chapter⟩
  · intro other spot f before after key o long short hf hd hlong hshort hsame htakes
    rw [show t.arrange other = _ from arrange_made]
    obtain ⟨v, hv, hfind⟩ := Folder.find?_of_mem_nodes made_tidy hf
    obtain rfl : spot = v := hv
    obtain ⟨ns, w, h1, h2, h3⟩ := Arrange.arrange_dropped hd made_tidy
      (made_plain hp.chapters hp.pages) hfind hlong hshort
      (fun way g hg => hsame (way, g) (Folder.mem_nodes_of_find? hg [])) (pass_returns hr)
      (untaken_of_not_takes hp htakes)
    have hstop : w.stop = none := by
      have hdone := pass_returns hr
      rw [show (pass source metaName additions disk).1 = _ from h2] at hdone
      exact hdone
    unfold pass
    dsimp only
    rw [h1, h2, h3]
    refine ⟨rfl, hstop, ns, w.notices, rfl, ?_⟩
    simp [Arrange.Work.after]

/-- A chapter two folders down, and one in the folder above it. -/
def sample : List Addition :=
  [.chapter ⟨"x", "X", "a/b/x.ts", "a/b", 100, [], none⟩ "a/b",
    .chapter ⟨"y", "Y", "a/y.ts", "a", 100, [], none⟩ "a"]

def sampleTree : Tree := made ⟨.single, ["r"]⟩ "_meta.json" sample

/-- The lower folder takes the first chapter up with a new title. What the folder at the top says
is given. -/
def sampleDisk (top : List UInt8) : Disk :=
  ⟨[(["r"], .directory), (["r", "a"], .directory), (["r", "_meta.json"], .file top),
    (["r", "a", "_meta.json"], .file [123, 34, 98, 47, 120, 34, 58, 34, 85, 112, 34, 125])]⟩

/-- The folder at the top takes the chapter up once more. -/
def sampleTop : List UInt8 := [123, 34, 97, 47, 120, 34, 58, 34, 34, 125]

/-- The same, with a key before it that moves nothing. -/
def sampleLong : List UInt8 :=
  [123, 34, 98, 47, 121, 34, 58, 34, 90, 34, 44, 34, 97, 47, 120, 34, 58, 34, 34, 125]

theorem sample_proper : Proper sample := ⟨by decide, by decide, by decide, by decide⟩

theorem sample_readable :
    Arrange.Readable (sampleDisk sampleTop) "_meta.json" sampleTree.root :=
  Folder.every_iff.mpr (show ∀ n ∈ Folder.nodes [] _, _ by decide)

theorem a_chapter_rises_twice :
    Proper sample ∧ Arrange.Readable (sampleDisk sampleTop) "_meta.json" sampleTree.root ∧
    (sampleTree.arrange (sampleDisk sampleTop)).1.holders "x" = [[]] ∧
    ((sampleTree.arrange (sampleDisk sampleTop)).1.chapter? "x").map (fun c => (c.folder, c.title)) =
      some (some "", "Up") ∧
    (sampleTree.arrange (sampleDisk sampleLong)).1 = (sampleTree.arrange (sampleDisk sampleTop)).1 := by
  obtain ⟨-, hstands, hdead⟩ :=
    chapters_stand_where_their_walk_up_leads sample_proper sample_readable
  have hlast : Stay.last (Arrange.rules (sampleDisk sampleTop) "_meta.json" sampleTree.root) "x"
      ["a", "b"] "X" = ⟨[], "Up", false⟩ := by decide +kernel
  obtain ⟨hholders, hchapter⟩ := hstands _ _ List.mem_cons_self
  let top : String × Override := ("a/x", { Override.plain with title := some "" })
  let dead : Override := { Override.plain with title := some "Z" }
  have hone := hdead (sampleDisk sampleLong) [] sampleTree.root [] [top] "b/y" dead
    ⟨[("b/y", dead), top], []⟩ ⟨[top], []⟩ List.mem_cons_self
    ⟨rfl, rfl, rfl, by decide, by decide⟩ rfl rfl
    (by
      change ∀ n ∈ [([], _), (["a"], _), (["a", "b"], _)], _
      simp only [List.forall_mem_cons, ne_eq, not_true_eq_false, false_implies, true_and]
      exact ⟨fun _ => rfl, fun _ => rfl, fun _ h => nomatch h⟩)
    (by
      intro c path h
      simp only [sample, List.mem_cons, List.not_mem_nil, or_false, Addition.chapter.injEq] at h
      rcases h with ⟨rfl, rfl⟩ | ⟨rfl, rfl⟩
      · decide +kernel
      · decide +kernel)
  refine ⟨sample_proper, sample_readable, ?_, ?_, hone.1⟩
  · refine hholders.trans ?_
    exact congrArg (fun s : Stay => [s.way]) hlast
  · have hs := congrArg (fun s : Stay => some (some (pathText s.way), s.title)) hlast
    rw [show (sampleTree.arrange (sampleDisk sampleTop)).1.chapter? "x" = _ from hchapter]
    exact hs

end Tree

end Sourcebook
