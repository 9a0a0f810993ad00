-- The turn of one folder of a tree: where the chapters stand before it and after it, and what the
-- folder has become in the end.
import Mathlib
import Sourcebook.Proofs.Contents.Held
import Sourcebook.Proofs.Contents.Hoisting
import Sourcebook.Proofs.Contents.Labels
import Sourcebook.Proofs.Contents.Lists

namespace Sourcebook

open Folder (Every Tidy Plain Worn)

namespace Arrange

variable {disk : Disk} {metaName : String} {way : List String} {w : Work} {info : FolderInfo}
  {children : List Folder}

theorem rules_below {f g : Folder} {v : List String} (hg : f.find? v = some g) :
    (rules disk metaName f).below v = rules disk metaName g := by
  funext way
  simp [Rules.below, rules, Folder.find?_append, hg]

/-- Where a chapter stands when the folders inside had their turns. -/
theorem arrangeAll_before {c : Chapter} (hid : '/' ∉ c.id.toList) (hfolder : c.folder = none)
    {v : List String} (ht : (Folder.mk info children).Tidy)
    (hp : Every Plain (.mk info children)) (h : (Folder.mk info children).homes c.id = [v])
    (hc : w.chapter? c.id = some c) (hs : (arrangeAll disk metaName way w children).1.stop = none) :
    (Folder.mk info (arrangeAll disk metaName way w children).2).homes c.id =
      [(Stay.before (rules disk metaName (.mk info children)) c.id v c.title []).way] := by
  cases v with
  | nil =>
    obtain ⟨hcount, hnil⟩ := Folder.sites_eq_here.mp h
    obtain ⟨h1, -, -⟩ := arrangeAll_nowhere (fun b _ v w => arrange_nowhere) hnil hs
    rw [show (Stay.before (rules disk metaName (.mk info children)) c.id [] c.title []).way = [] from
      Stay.first_way _ c.id [] c.title]
    exact Folder.sites_eq_here.mpr ⟨hcount, h1⟩
  | cons segment rest =>
    obtain ⟨hcount, hinside⟩ := Folder.sites_eq_inside.mp h
    obtain ⟨d, hd, r, hv, hstands⟩ := arrangeAll_stands
      (fun d hd here w r => arrange_stands hid hfolder (ht.child hd) (hp.child hd)) hinside hc hs
    obtain ⟨rfl, rfl⟩ := List.cons.inj hv
    rw [Stay.before_top, rules_inside ht hd]
    exact Folder.sites_eq_inside.mpr ⟨hcount, hstands.homes⟩

end Arrange

namespace Tree

open Arrange (Work)

variable {source : Path} {metaName : String} {additions : List Addition} {disk : Disk}
  {spot : List String} {g : Folder}

/-! ## Chapters in one folder -/

theorem homes_at (hp : Proper additions)
    (hg : (made source metaName additions).root.find? spot = some g) {c : Chapter} {path : String}
    {way : List String} (h : .chapter c path ∈ additions) (hway : segments path = spot ++ way) :
    g.homes c.id = [way] :=
  Folder.sites_find? made_tidy hg ((home_of_mem hp h).trans (by rw [hway]))

theorem homes_apart (hp : Proper additions)
    (hg : (made source metaName additions).root.find? spot = some g) {id : String}
    (h : ∀ c path, .chapter c path ∈ additions → c.id = id → ¬ spot <+: segments path) :
    g.homes id = [] := by
  rw [List.eq_nil_iff_forall_not_mem]
  intro way hway
  have hsite : spot ++ way ∈ (made source metaName additions).root.homes id :=
    (Folder.mem_sites_find? made_tidy hg).mpr hway
  rw [made_homes hp.once, List.mem_filterMap] at hsite
  obtain ⟨a, ha, hhome⟩ := hsite
  obtain ⟨c, path, rfl, hid, he⟩ := Addition.home?_eq_some.mp hhome
  exact h c path ha hid ⟨way, he⟩

/-- What is known for every chapter that was put into a folder, or further down, and for chapters
that stand nowhere in it, is known for all. -/
theorem mem_iff_of_homes (hp : Proper additions)
    (hg : (made source metaName additions).root.find? spot = some g)
    {homes : String → List (List String)} {s : Chapter → List String → Stay}
    (hnone : ∀ id, g.homes id = [] → homes id = [])
    (hone : ∀ c path way, .chapter c path ∈ additions → segments path = spot ++ way →
      ∃ v, homes c.id = [v] ∧ (s c (segments path)).way = spot ++ v)
    (id : String) (v : List String) :
    v ∈ homes id ↔ ∃ c path, .chapter c path ∈ additions ∧ c.id = id ∧ spot <+: segments path ∧
      (s c (segments path)).way = spot ++ v := by
  constructor
  · intro hv
    by_cases h : ∃ c path, .chapter c path ∈ additions ∧ c.id = id ∧ spot <+: segments path
    · obtain ⟨c, path, hc, rfl, way, hway⟩ := h
      obtain ⟨u, hu, hstay⟩ := hone c path way hc hway.symm
      rw [hu, List.mem_singleton] at hv
      subst hv
      exact ⟨c, path, hc, rfl, ⟨way, hway⟩, hstay⟩
    · have hnil := hnone id (homes_apart hp hg fun c path hc hid hspot => h ⟨c, path, hc, hid, hspot⟩)
      rw [hnil] at hv
      cases hv
  · rintro ⟨c, path, hc, rfl, ⟨way, hway⟩, hstay⟩
    obtain ⟨u, hu, hsame⟩ := hone c path way hc hway.symm
    rw [hu, List.mem_singleton]
    exact List.append_cancel_left (hstay.symm.trans hsame)

/-- Where pages stand in one folder. -/
theorem pages_at (hg : (made source metaName additions).root.find? spot = some g)
    {key : String × String} {v : List String} : v ∈ g.sites (FolderInfo.pageCount key) ↔
      ∃ p path, .page p path ∈ additions ∧ p.key = key ∧ segments path = spot ++ v := by
  rw [← Folder.mem_sites_find? made_tidy hg, mem_made_pages]

/-- A folder of the arranged tree lists the chapters that came to stand there, unless they are
hidden. -/
theorem listed_at (hp : Proper additions)
    (hr : Arrange.Readable disk metaName (made source metaName additions).root)
    (hg : (pass source metaName additions disk).2.find? spot = some g) {c : Chapter} {path : String}
    (hc : .chapter c path ∈ additions) :
    let s := Stay.last (Arrange.rules disk metaName (made source metaName additions).root) c.id
      (segments path) c.title
    .chapter c.id ∈ g.info.items ↔ s.way = spot ∧ s.hidden = false := by
  intro s
  have hsite : spot ++ [] ∈ (pass source metaName additions disk).2.listings c.id ↔
      [] ∈ g.listings c.id :=
    Folder.mem_sites_find? (Arrange.arrange_tidy made_tidy (pass_returns hr)) hg
  rw [← Folder.nil_mem_listings, ← hsite, (pass_stands hp hr hc).listings, List.append_nil]
  cases s.hidden <;> simp [s, eq_comm]

/-! ## The turn of a folder -/

/-- Chapters that were put into a folder, or further down, are still as they were put there. -/
def Untouched (additions : List Addition) (spot : List String) (w : Work) : Prop :=
  ∀ c path way, .chapter c path ∈ additions → segments path = spot ++ way →
    w.chapter? c.id = some c

section Turn

variable {w : Work} {info : FolderInfo} {children : List Folder} {c : Chapter} {path : String}

theorem tidy_at (hg : (made source metaName additions).root.find? spot = some g) : g.Tidy :=
  Every.find? made_tidy hg

theorem plain_at (hp : Proper additions)
    (hg : (made source metaName additions).root.find? spot = some g) : Every Plain g :=
  Every.find? (made_plain hp.chapters hp.pages) hg

/-- Where a chapter stands when the folder had its turn. -/
theorem stands_at (hp : Proper additions)
    (hg : (made source metaName additions).root.find? spot = some g)
    (hw : Untouched additions spot w) (hs : (Arrange.arrange disk metaName spot w g).1.stop = none)
    {way : List String} (hc : .chapter c path ∈ additions) (hway : segments path = spot ++ way) :
    let a := Arrange.arrange disk metaName spot w g
    Arrange.Stands (a.2.homes c.id) (a.2.listings c.id) a.1 spot c
      (Stay.last (Arrange.rules disk metaName g) c.id way c.title) :=
  Arrange.arrange_stands (hp.of_mem hc).1 (hp.of_mem hc).2 (tidy_at hg) (plain_at hp hg)
    (homes_at hp hg hc hway) (hw c path way hc hway) hs

/-- Where chapters stand when the folders inside had their turns. -/
theorem homes_before (hp : Proper additions)
    (hg : (made source metaName additions).root.find? spot = some (.mk info children))
    (hw : Untouched additions spot w)
    (hs : (Arrange.arrangeAll disk metaName spot w children).1.stop = none) :
    let rules := Arrange.rules disk metaName (made source metaName additions).root
    ∀ id v, v ∈ (Folder.mk info (Arrange.arrangeAll disk metaName spot w children).2).homes id ↔
      ∃ c path, .chapter c path ∈ additions ∧ c.id = id ∧ spot <+: segments path ∧
        (Stay.before rules c.id (segments path) c.title spot).way = spot ++ v := by
  intro rules
  refine mem_iff_of_homes hp hg (s := fun c way => Stay.before rules c.id way c.title spot)
    (fun id hnone => ?_) fun c path way hc hway => ?_
  · obtain ⟨hcount, hnil⟩ := Folder.sites_eq_nil.mp hnone
    exact Folder.sites_eq_nil.mpr ⟨hcount,
      (Arrange.arrangeAll_nowhere (fun b _ v w => Arrange.arrange_nowhere) hnil hs).1⟩
  · refine ⟨_, Arrange.arrangeAll_before (hp.of_mem hc).1 (hp.of_mem hc).2 (tidy_at hg)
      (plain_at hp hg) (homes_at hp hg hc hway) (hw c path way hc hway) hs, ?_⟩
    rw [hway, Stay.before_below, Arrange.rules_below hg]
    rfl

/-- Where chapters stand when the folder had its turn. -/
theorem homes_after (hp : Proper additions)
    (hg : (made source metaName additions).root.find? spot = some g)
    (hw : Untouched additions spot w) (hs : (Arrange.arrange disk metaName spot w g).1.stop = none) :
    let rules := Arrange.rules disk metaName (made source metaName additions).root
    ∀ id v, v ∈ (Arrange.arrange disk metaName spot w g).2.homes id ↔
      ∃ c path, .chapter c path ∈ additions ∧ c.id = id ∧ spot <+: segments path ∧
        (Stay.after rules c.id (segments path) c.title spot).way = spot ++ v := by
  intro rules
  refine mem_iff_of_homes hp hg (s := fun c way => Stay.after rules c.id way c.title spot)
    (fun id hnone => (Arrange.arrange_nowhere hnone hs).1) fun c path way hc hway => ?_
  refine ⟨_, (stands_at hp hg hw hs hc hway).homes, ?_⟩
  rw [hway, Stay.after_below, Arrange.rules_below hg]
  rfl

/-- A chapter that stays in the folder has its last title when the folder had its turn. -/
theorem chapter?_after (hp : Proper additions)
    (hg : (made source metaName additions).root.find? spot = some g)
    (hw : Untouched additions spot w) (hs : (Arrange.arrange disk metaName spot w g).1.stop = none)
    (hc : .chapter c path ∈ additions) :
    let s := Stay.last (Arrange.rules disk metaName (made source metaName additions).root) c.id
      (segments path) c.title
    s.way = spot → (Arrange.arrange disk metaName spot w g).1.chapter? c.id =
      some { c with folder := some (pathText spot), title := s.title } := by
  intro s hlast
  obtain ⟨way, hway, hnil, he⟩ := Stay.exists_of_last hlast
  rw [Arrange.rules_below hg] at hnil he
  rw [(stands_at hp hg hw hs hc hway).chapter, hnil, List.append_nil]
  simp only [s, he]
  rfl

/-- A chapter that stays in the folder is listed when the folder had its turn, unless it is
hidden. -/
theorem listed_after (hp : Proper additions)
    (hg : (made source metaName additions).root.find? spot = some g)
    (hw : Untouched additions spot w) (hs : (Arrange.arrange disk metaName spot w g).1.stop = none)
    (hc : .chapter c path ∈ additions) :
    let s := Stay.last (Arrange.rules disk metaName (made source metaName additions).root) c.id
      (segments path) c.title
    s.way = spot → (.chapter c.id ∈ (Arrange.arrange disk metaName spot w g).2.info.items ↔
      s.hidden = false) := by
  intro s hlast
  obtain ⟨way, hway, hnil, he⟩ := Stay.exists_of_last hlast
  rw [Arrange.rules_below hg] at hnil he
  have hlistings := (stands_at hp hg hw hs hc hway).listings
  rw [hnil] at hlistings
  rw [← Folder.nil_mem_listings, hlistings]
  simp only [s, he]
  cases hh : (Stay.last (Arrange.rules disk metaName g) c.id way c.title).hidden <;>
    simp [Stay.under, hh]

end Turn

/-- What is known of the turn of a folder: of the folder when those inside had their turns, and of
what the folder is in the end. -/
structure Visit (rules : Rules) (additions : List Addition) (metaName : String)
    (spot : List String) (file : OverrideFile) (w : Work) (info : FolderInfo)
    (inside : List Folder) (last : Folder) : Prop where
  entries : rules spot = file.entries
  once : (file.entries.map (·.1)).Nodup
  tidy : (Folder.mk info inside).Tidy
  plain : (Folder.mk info inside).Plain
  chapters : info.chapters = (chaptersAt additions spot).map (·.id)
  pages : info.pages = pagesAt additions spot
  /-- Where chapters stand before the turn. -/
  before : ∀ id v, v ∈ (Folder.mk info inside).homes id ↔
    ∃ c path, .chapter c path ∈ additions ∧ c.id = id ∧ spot <+: segments path ∧
      (Stay.before rules c.id (segments path) c.title spot).way = spot ++ v
  /-- Where chapters stand after the turn. -/
  after : ∀ id v, v ∈ (Arrange.arrangeBy file metaName spot w info inside).2.homes id ↔
    ∃ c path, .chapter c path ∈ additions ∧ c.id = id ∧ spot <+: segments path ∧
      (Stay.after rules c.id (segments path) c.title spot).way = spot ++ v
  /-- Where pages stand, before and after the turn. -/
  within : ∀ key v, v ∈ (Arrange.arrangeBy file metaName spot w info inside).2.sites
      (FolderInfo.pageCount key) ↔
    ∃ p path, .page p path ∈ additions ∧ p.key = key ∧ segments path = spot ++ v
  /-- Chapters that stay in the folder have their last title. -/
  told : ∀ c path, .chapter c path ∈ additions →
    (Stay.last rules c.id (segments path) c.title).way = spot →
    (Arrange.arrangeBy file metaName spot w info inside).1.chapter? c.id =
      some { c with
        folder := some (pathText spot)
        title := (Stay.last rules c.id (segments path) c.title).title }
  /-- Chapters that stay in the folder are listed after the turn, unless they are hidden. -/
  lists : ∀ c path, .chapter c path ∈ additions →
    (Stay.last rules c.id (segments path) c.title).way = spot →
    (.chapter c.id ∈ (Arrange.arrangeBy file metaName spot w info inside).2.info.items ↔
      (Stay.last rules c.id (segments path) c.title).hidden = false)
  /-- Chapters are listed in the end where they stand, unless they are hidden. -/
  kept : ∀ c path, .chapter c path ∈ additions →
    (.chapter c.id ∈ last.info.items ↔
      (Stay.last rules c.id (segments path) c.title).way = spot ∧
        (Stay.last rules c.id (segments path) c.title).hidden = false)
  worn : Worn (Arrange.arrangeBy file metaName spot w info inside).2 last

/-- Every folder of a tree has its turn. -/
theorem exists_visit (hp : Proper additions)
    (hr : Arrange.Readable disk metaName (made source metaName additions).root)
    {info : FolderInfo} {children : List Folder}
    (hg : (made source metaName additions).root.find? spot = some (.mk info children)) :
    ∃ file w inside last, Folder.labels inside = Folder.labels children ∧
      (pass source metaName additions disk).2.find? spot = some last ∧
      Visit (Arrange.rules disk metaName (made source metaName additions).root) additions metaName
        spot file w info inside last := by
  obtain ⟨w, last, hstop, hsame, hlast, hworn⟩ := Arrange.arrange_find? [] made_tidy hg
    (pass_returns hr)
  rw [List.nil_append] at hstop hworn
  obtain ⟨hsall, file, hfile, harranged⟩ := Arrange.arrange_step hstop
  have huntouched : Untouched additions spot w := by
    intro c path way hc hway
    rw [hsame c.id way ((home_of_mem hp hc).trans (by rw [hway]))]
    exact chapter?_of_mem hp hc
  refine ⟨file, (Arrange.arrangeAll disk metaName spot w children).1,
    (Arrange.arrangeAll disk metaName spot w children).2, last, Arrange.arrangeAll_labels children,
    hlast, ?_⟩
  exact {
    entries := by
      rw [Arrange.rules, hg]
      exact Arrange.entriesAt_eq hfile
    once := Arrange.fileAt_nodup hfile
    tidy := Arrange.arrangeAll_tidy (tidy_at hg) hsall
    plain := (plain_at hp hg).here
    chapters := (held_of_find? hp.once hg).1
    pages := (held_of_find? hp.once hg).2
    before := homes_before hp hg huntouched hsall
    after := harranged ▸ homes_after hp hg huntouched hstop
    within := by
      intro key v
      rw [← harranged, Arrange.arrange_sites (Arrange.fixed_pageCount key), pages_at hg]
    told := fun c path hc => harranged ▸ chapter?_after hp hg huntouched hstop hc
    lists := fun c path hc => harranged ▸ listed_after hp hg huntouched hstop hc
    kept := fun c path hc => listed_at hp hr hlast hc
    worn := harranged ▸ hworn }

end Tree

end Sourcebook
