-- Where the links of the table of contents lead after the run. Chapters and their folders are
-- there; a page of the reference is there unless the run cleared it.
import Mathlib
import Sourcebook.Proofs.Publish.Agreement
import Sourcebook.Proofs.Publish.Folders

namespace Sourcebook

/-- All names on the disk are parts that a text can give. -/
def Disk.Spelled (d : Disk) : Prop := ∀ x ∈ d.entries, ∀ n ∈ x.1, IsPart n

instance (d : Disk) : Decidable d.Spelled := List.decidableBAll _ _

namespace Publish

open Sourcebook.Tree (pathText segments)

variable {d d' : Disk} {s : Settings} {l : Location} {written : List Path} {desk : Desk}
  {tree : Tree} {pages : List ReferencePage} {chapters : List Chapter}

/-! ## What stands after a run stands in directories -/

theorem lasts_wellFormed : Lasts Disk.WellFormed where
  removeTree hl h := h.removeTree hl
  makeDirectory hmake h := h.makeDirectory hmake
  write hwrite h := h.write hwrite

/-- Whatever a run leaves stands in directories, also where it fails. -/
theorem run_wellFormed (hw : d.WellFormed) (s : Settings) : (run d s).disk.WellFormed :=
  lasts_wellFormed.run hw s

/-! ## Files after a run -/

/-- A file stands where the run wrote one. -/
theorem Returns.stands (h : Returns d s written desk tree pages) (hd : d.Named)
    (hs : s.root.Named) (hl : l ∈ written.map (Path.normal [])) :
    ∃ bytes, (run d s).disk.fileAt l = some bytes := by
  by_cases hsummary : l = s.summaryFile.normal []
  · exact ⟨_, hsummary ▸ h.summary⟩
  · rw [h.written_places, List.mem_append, List.mem_singleton] at hl
    obtain ⟨c, hc, rfl⟩ := List.mem_map.mp (hl.resolve_right hsummary)
    exact ⟨_, h.page (h.places_nodup hd hs) hc hsummary⟩

/-- A file that was there is there, unless it was cleared and nothing was written in its place. -/
theorem Returns.outlasts (h : Returns d s written desk tree pages) (hd : d.Named)
    (hw : d.WellFormed) (hs : s.root.Named) {before : List UInt8} (hl : d.fileAt l = some before) :
    (∃ bytes, (run d s).disk.fileAt l = some bytes) ↔
      (s.outDir.normal [] <+: l → l ∈ written.map (Path.normal [])) := by
  by_cases hmem : l ∈ written.map (Path.normal [])
  · exact iff_of_true (h.stands hd hs hmem) fun _ => hmem
  by_cases hout : s.outDir.normal [] <+: l
  · have hnone := h.below hw hout hmem
    refine iff_of_false ?_ fun hin => hmem (hin hout)
    rintro ⟨bytes, hbytes⟩
    rw [hnone] at hbytes
    cases hbytes
  · refine iff_of_true ⟨before, ?_⟩ fun hin => absurd hin hout
    have hnone : lastMeeting l (Publish.changes d s) = none := by
      rw [h.unwritten hmem, lastMeeting_eq_none]
      intro c hc hmeets
      rcases clearing_cases d s with hclear | hclear
      · rw [hclear] at hc
        cases hc
      · rw [hclear, List.mem_singleton] at hc
        exact hout (Change.meets_cleared.mp (hc ▸ hmeets))
    rw [fileAt_run_eq, hnone]
    exact hl

/-! ## Pages of the reference -/

/-- The place of a page of the reference. -/
def referencePlace (s : Settings) (p : ReferencePage) : Location :=
  (s.apiDir.join (Path.ofString p.path)).normal []

/-- The run cleared a page of the reference and wrote nothing in its place. -/
def Lost (s : Settings) (written : List Path) (p : ReferencePage) : Prop :=
  s.outDir.normal [] <+: referencePlace s p ∧ referencePlace s p ∉ written.map (Path.normal [])

instance (s : Settings) (written : List Path) (p : ReferencePage) : Decidable (Lost s written p) :=
  inferInstanceAs (Decidable (_ ∧ _))

theorem referencePlace_congr {p q : ReferencePage} (h : p.key = q.key) :
    referencePlace s p = referencePlace s q := by
  unfold referencePlace
  rw [show p.path = q.path from congrArg Prod.snd h]

/-- A page of the reference is a file below the directory of the reference. -/
theorem page_stands (hd : d.Named) (hn : d.Spelled) {warnings : List String}
    (h : ReferencePage.collect d s.apiDir = .ok (pages, warnings)) {p : ReferencePage}
    (hp : p ∈ pages) : referencePlace s p = s.apiDir.normal [] ++ segments p.path ∧
      ∃ bytes, d.fileAt (referencePlace s p) = some bytes := by
  obtain ⟨spelled, rfl, hnames, hfile⟩ := mem_collect h hp
  have hparts : ∀ n ∈ spelled, LeadsDown n ∧ IsPart n := by
    intro n hmem
    obtain ⟨x, hx, hin⟩ := hnames n hmem
    have hpart := hn x hx n hin
    exact ⟨⟨hpart.1, hpart.2.2, (hd x hx n hin).1⟩, hpart⟩
  have hsegments : segments (ReferencePage.ofPath ("/".intercalate spelled)).path = spelled :=
    Path.partsOf_of_parts fun n hmem => (hparts n hmem).2
  have hplace : referencePlace s (.ofPath ("/".intercalate spelled)) =
      s.apiDir.normal [] ++ spelled := Path.normal_join_intercalate s.apiDir hparts
  have hspelled : (Glob.placed (s.apiDir.normal []) spelled).normal [] =
      s.apiDir.normal [] ++ spelled := by
    rw [Path.normal_eq]
    refine Location.walk_down fun hp => ?_
    rcases List.mem_append.mp hp with hp | hp
    · exact (normal_names hp).2 rfl
    · exact (hparts _ hp).1.2.2 rfl
  rw [hsegments, hplace, ← hspelled]
  exact ⟨rfl, Disk.fileAt_of_isFile hfile⟩

/-! ## Links -/

/-- A link of the table of contents reaches what it names: a directory where it names a folder,
else a file. -/
def Reaches (disk : Disk) (s : Settings) (m : Outline.Mention) (link : String) : Prop :=
  match m.item with
  | .folder _ => disk.get? (followed s link) = some .directory
  | _ => ∃ bytes, disk.fileAt (followed s link) = some bytes

/-- How a link can go astray. Its page is lost, or it names a folder of the reference in which all
pages are lost or no page was. -/
def Astray (s : Settings) (pages : List ReferencePage) (written : List Path)
    (m : Outline.Mention) : Prop :=
  match m.item with
  | .page q => Lost s written q
  | .folder segment => pagesWithin s pages ≠ [] ∧ [ReferencePage.folder] <+: m.way ++ [segment] ∧
      ∀ p ∈ pages, m.way ++ [segment] <+: p.way → Lost s written p
  | _ => False

/-- A link to a page leads to its place, and the page was planted there. -/
theorem Grown.pageLink (h : Grown d s chapters tree pages) (ha : s.apiDir.Spelled)
    {m : Outline.Mention} (hm : m ∈ Outline.mentions [] tree.root) {q : ReferencePage}
    (hi : m.item = .page q) {link : String} (hl : m.link? (.of s tree) = some link) :
    followed s link = referencePlace s q ∧ ∃ p ∈ pagesWithin s pages, p.key = q.key := by
  obtain ⟨v, f, -, hf, hitem, -⟩ := Outline.mem_mentions h.tidy hm
  obtain ⟨p, hp, hkey, -⟩ := h.listed_page hf (hi ▸ hitem)
  simp only [Outline.Mention.link?, hi, Option.some.injEq] at hl
  subst hl
  exact ⟨Path.link_leads (ha.join (Path.spelled_ofString _)) _, p, hp, hkey⟩

/-- A link to a folder is one to a folder that is not empty. -/
theorem Grown.folderLink (h : Grown d s chapters tree pages) {m : Outline.Mention}
    (hm : m ∈ Outline.mentions [] tree.root) {segment : String} (hi : m.item = .folder segment)
    {link : String} (hl : m.link? (.of s tree) = some link) :
    m.way ≠ [] ∧ link = (Outline.Places.of s tree).folderLink (m.way ++ [segment]) ∧
      ∃ f, tree.root.find? (m.way ++ [segment]) = some f ∧ f.isEmpty = false := by
  obtain ⟨v, f, hway, -, -, hfolder⟩ := Outline.mem_mentions h.tidy hm
  obtain ⟨c, hc, he, -⟩ := hfolder segment hi
  simp only [Outline.Mention.link?, hi, Option.ite_none_left_eq_some, Option.some.injEq] at hl
  rw [List.nil_append] at hway
  exact ⟨hl.1, hl.2.symm, c, hway ▸ hc, he⟩

/-- Names that are followed from a directory lead to a place below it. -/
theorem normal_join_names (p : Path) {names : List String} (h : ∀ n ∈ names, LeadsDown n) :
    (p.join ⟨.none, names⟩).normal [] = p.normal [] ++ names :=
  Path.normal_join rfl fun hp => (h _ hp).2.2 rfl

/-- A link to a folder leads to the directory that the folder stands for. -/
theorem followed_folder (t : Tree) {way names : List String} {dir : Path} (h : dir.Spelled)
    (hnames : ∀ n ∈ names, LeadsDown n ∧ IsPart n)
    (hway : (Outline.Places.of s t).directory way = dir.join ⟨.none, names⟩) :
    followed s ((Outline.Places.of s t).folderLink way) = dir.normal [] ++ names := by
  have hspelled : ((Outline.Places.of s t).directory way).Spelled := by
    rw [hway]
    exact h.join fun n hn => (hnames n hn).2
  refine (Path.folderLink_leads hspelled _).trans ?_
  rw [hway, normal_join_names _ fun n hn => (hnames n hn).1]

/-- In the folder of the reference the link to a folder leads to a directory of the reference. -/
theorem Grown.folder_within (h : Grown d s chapters tree pages) (hd : d.Named)
    (ha : s.apiDir.Spelled) {m : Outline.Mention} (hm : m ∈ Outline.mentions [] tree.root)
    {segment : String} (hi : m.item = .folder segment) {link : String}
    (hl : m.link? (.of s tree) = some link) (hne : pagesWithin s pages ≠ []) {rest : List String}
    (hway : m.way ++ [segment] = ReferencePage.folder :: rest) :
    followed s link = s.apiDir.normal [] ++ rest := by
  obtain ⟨-, rfl, f, hf, he⟩ := h.folderLink hm hi hl
  have hnames := h.way_names hd hf he
  rw [hway] at hnames ⊢
  exact followed_folder tree ha (fun n hn => hnames n (List.mem_cons_of_mem _ hn))
    (h.directory_within hne rest)

/-- Everywhere else it leads to a directory of the pages. -/
theorem Grown.folder_without (h : Grown d s chapters tree pages) (hd : d.Named)
    (ho : s.outDir.Spelled) {m : Outline.Mention} (hm : m ∈ Outline.mentions [] tree.root)
    {segment : String} (hi : m.item = .folder segment) {link : String}
    (hl : m.link? (.of s tree) = some link)
    (hout : pagesWithin s pages = [] ∨ ¬ [ReferencePage.folder] <+: m.way ++ [segment]) :
    followed s link = s.outDir.normal [] ++ (m.way ++ [segment]) := by
  obtain ⟨-, rfl, f, hf, he⟩ := h.folderLink hm hi hl
  exact followed_folder tree ho (h.way_names hd hf he) (h.directory_without hout)

/-- A page of the reference that is not lost stands after the run. -/
theorem Returns.page_kept (h : Returns d s written desk tree pages) (hd : d.Named) (hn : d.Spelled)
    (hw : d.WellFormed) (hs : s.root.Named) {p : ReferencePage} (hp : p ∈ pages) :
    (∃ bytes, (run d s).disk.fileAt (referencePlace s p) = some bytes) ↔ ¬ Lost s written p := by
  obtain ⟨warnings, hfound⟩ := (h.grown hd hs).found
  obtain ⟨-, before, hbefore⟩ := page_stands hd hn hfound hp
  rw [h.outlasts hd hw hs hbefore, Lost, not_and_not_right]

/-- What a run that returns pages makes of a chapter: the page that it writes for it. -/
theorem Returns.chapter (h : Returns d s written desk tree pages) (hd : d.Named) (hs : s.root.Named) {c : Chapter}
    (hc : c ∈ desk.book.ordered) :
    let e := settled d s desk.book.ordered pages c
    tree.chapter? c.id = some e ∧ pageOf s e ∈ written ∧
      ((pageOf s e).normal [] ≠ s.summaryFile.normal [] →
        (run d s).disk.fileAt ((pageOf s e).normal []) = some (Text.encode e.render)) := by
  intro e
  have hgrown := h.grown hd hs
  have hmem : e ∈ finished tree desk.book.ordered := by
    rw [hgrown.finished]
    exact List.mem_map_of_mem hc
  refine ⟨(hgrown.stands hc).2, ?_, h.page (h.places_nodup hd hs) hmem⟩
  rw [h.written]
  exact List.mem_append_left _ (List.mem_map_of_mem hmem)

/-- A folder that holds a chapter has a directory among the pages. -/
theorem Returns.chapter_directory (h : Returns d s written desk tree pages) (hd : d.Named)
    (hw : d.WellFormed) (hs : s.root.Named) {c : Chapter} (hc : c ∈ desk.book.ordered)
    {way : List String} (hway : way <+: (stayOf d s desk.book.ordered pages c).way) :
    (run d s).disk.get? (s.outDir.normal [] ++ way) = some .directory := by
  have hgrown := h.grown hd hs
  have hmem := List.mem_map_of_mem (f := Path.normal []) (h.chapter hd hs hc).2.1
  obtain ⟨bytes, hbytes⟩ := h.stands hd hs hmem
  rw [hgrown.pageOf_settled hc] at hbytes
  refine (run_wellFormed hw s).above (Disk.fileAt_eq_some.mp hbytes)
    ((List.prefix_append_right_inj _).mpr (hway.trans (List.prefix_append _ _))) fun he => ?_
  have hlength := congrArg List.length (List.append_cancel_left he)
  have hle := hway.length_le
  simp at hlength
  omega

/-- A folder in which a page was planted that is not lost has its directory in the reference. -/
theorem Returns.page_directory (h : Returns d s written desk tree pages) (hd : d.Named)
    (hn : d.Spelled) (hw : d.WellFormed) (hs : s.root.Named) {p : ReferencePage} (hp : p ∈ pages)
    (hkept : ¬ Lost s written p) {rest : List String} (hne : rest ≠ [])
    (hway : ReferencePage.folder :: rest <+: p.way) :
    (run d s).disk.get? (s.apiDir.normal [] ++ rest) = some .directory := by
  obtain ⟨warnings, hfound⟩ := (h.grown hd hs).found
  obtain ⟨bytes, hbytes⟩ := (h.page_kept hd hn hw hs hp).mpr hkept
  rw [(page_stands hd hn hfound hp).1] at hbytes
  have hfront : rest <+: (segments p.path).dropLast := (List.cons_prefix_cons.mp hway).2
  refine (run_wellFormed hw s).above (Disk.fileAt_eq_some.mp hbytes)
    ((List.prefix_append_right_inj _).mpr (hfront.trans (List.dropLast_prefix _))) fun he => ?_
  have hlength := congrArg List.length (List.append_cancel_left he)
  have hle := hfront.length_le
  have hpos := List.length_pos_iff.mpr hne
  rw [List.length_dropLast] at hle
  omega

/-- A link to a folder reaches its directory, unless it goes astray. -/
theorem Returns.folder_reached (h : Returns d s written desk tree pages) (hd : d.Named)
    (hn : d.Spelled) (hw : d.WellFormed) (hs : s.root.Named) (ho : s.outDir.Spelled)
    (ha : s.apiDir.Spelled) {m : Outline.Mention} (hm : m ∈ Outline.mentions [] tree.root)
    {segment : String} (hi : m.item = .folder segment) {link : String}
    (hl : m.link? (.of s tree) = some link) (hastray : ¬ Astray s pages written m) :
    Reaches (run d s).disk s m link := by
  have hgrown := h.grown hd hs
  obtain ⟨hway, -, f, hf, he⟩ := hgrown.folderLink hm hi hl
  simp only [Reaches, hi]
  by_cases hin : pagesWithin s pages ≠ [] ∧ [ReferencePage.folder] <+: m.way ++ [segment]
  · obtain ⟨hne, rest, hrest⟩ := hin
    have hkept : ∃ p ∈ pages, m.way ++ [segment] <+: p.way ∧ ¬ Lost s written p := by
      by_contra hnone
      push Not at hnone
      simp only [Astray, hi] at hastray
      exact hastray ⟨hne, ⟨rest, hrest⟩, hnone⟩
    obtain ⟨p, hp, hpway, hkept⟩ := hkept
    rw [List.singleton_append] at hrest
    have hinside : rest ≠ [] := by
      rintro rfl
      have hlength := congrArg List.length hrest
      exact hway (by simpa using hlength)
    rw [hgrown.folder_within hd ha hm hi hl hne hrest.symm]
    exact h.page_directory hd hn hw hs hp hkept hinside (hrest ▸ hpway)
  · have hout : pagesWithin s pages = [] ∨ ¬ [ReferencePage.folder] <+: m.way ++ [segment] := by
      rw [not_and_or, not_not] at hin
      exact hin
    rw [hgrown.folder_without hd ho hm hi hl hout]
    rcases hgrown.held.mp ⟨f, hf, he⟩ with ⟨c, hc, hcway⟩ | ⟨p, hp, hpway⟩
    · exact h.chapter_directory hd hw hs hc hcway
    · refine absurd ⟨List.ne_nil_of_mem hp, ?_⟩ hin
      exact List.prefix_of_prefix_length_le (folder_prefix_way p) hpway (by simp)

/-- A link reaches what it names, unless it goes astray. -/
theorem Returns.reached (h : Returns d s written desk tree pages) (hd : d.Named)
    (hn : d.Spelled) (hw : d.WellFormed) (hs : s.root.Named) (ho : s.outDir.Spelled)
    (ha : s.apiDir.Spelled) {m : Outline.Mention} (hm : m ∈ Outline.mentions [] tree.root)
    {link : String} (hl : m.link? (.of s tree) = some link) :
    (¬ Astray s pages written m → Reaches (run d s).disk s m link) ∧
      ∀ q, m.item = .page q → (Reaches (run d s).disk s m link ↔ ¬ Lost s written q) := by
  have hgrown := h.grown hd hs
  have hpage : ∀ q, m.item = .page q →
      (Reaches (run d s).disk s m link ↔ ¬ Lost s written q) := by
    intro q hi
    obtain ⟨hplace, p, hp, hkey⟩ := hgrown.pageLink ha hm hi hl
    have hkept := h.page_kept hd hn hw hs (mem_pagesWithin hp)
    simp only [Lost, referencePlace_congr hkey] at hkept
    simp only [Reaches, hi, hplace, Lost]
    exact hkept
  refine ⟨fun hastray => ?_, hpage⟩
  cases hi : m.item with
  | folder segment => exact h.folder_reached hd hn hw hs ho ha hm hi hl hastray
  | chapter id =>
    obtain ⟨c, hc, -, link', hl', -, hplace⟩ := hgrown.chapterLink ho hm hi
    obtain rfl : link = link' := Option.some.inj (hl.symm.trans hl')
    have hmem : (pageOf s c).normal [] ∈ written.map (Path.normal []) := by
      rw [h.written_places]
      exact List.mem_append_left _ (List.mem_map_of_mem hc)
    simp only [Reaches, hi, hplace]
    exact h.stands hd hs hmem
  | page q =>
    simp only [Astray, hi] at hastray
    exact (hpage q hi).mpr hastray
  | separator title =>
    simp only [Outline.Mention.link?, hi] at hl
    cases hl

/-- Where no page is lost, and no chapter stands in the folder of the reference, no link goes
astray. -/
theorem Grown.not_astray (h : Grown d s chapters tree pages) (hkept : ∀ p ∈ pages, ¬ Lost s written p)
    (hapart : pagesWithin s pages ≠ [] → ∀ c ∈ Publish.finished tree chapters, ∀ rest,
      c.folder ≠ some (pathText (ReferencePage.folder :: rest)))
    {m : Outline.Mention} (hm : m ∈ Outline.mentions [] tree.root) : ¬ Astray s pages written m := by
  intro hastray
  obtain ⟨v, f, hway, hf, hitem, hfolder⟩ := Outline.mem_mentions h.tidy hm
  cases hi : m.item with
  | folder segment =>
    simp only [Astray, hi] at hastray
    obtain ⟨hne, hin, hlost⟩ := hastray
    obtain ⟨c, hc, he, -⟩ := hfolder segment hi
    rw [List.nil_append] at hway
    rw [← hway] at hc
    rcases h.held.mp ⟨c, hc, he⟩ with ⟨b, hb, hstay⟩ | ⟨p, hp, hpway⟩
    · obtain ⟨rest, hrest⟩ := hin.trans hstay
      have hb' := List.mem_map_of_mem (f := settled d s chapters pages) hb
      rw [← h.finished] at hb'
      refine hapart hne _ hb' rest ?_
      simp only [settled, ← hrest]
      rfl
    · exact hkept p (mem_pagesWithin hp) (hlost p (mem_pagesWithin hp) hpway)
  | chapter id => simp only [Astray, hi] at hastray
  | page q =>
    simp only [Astray, hi] at hastray
    obtain ⟨p, hp, hkey, -⟩ := h.listed_page hf (hi ▸ hitem)
    refine hkept p (mem_pagesWithin hp) ?_
    simp only [Lost, referencePlace_congr hkey]
    exact hastray
  | separator title => simp only [Astray, hi] at hastray

/-- After a run that returns pages, the links of its table of contents reach what they name, and
every line with a link has it from a mention. A link goes astray only where the run cleared pages of the
reference, or where a chapter stands in the folder of the reference. -/
theorem links_reach_what_the_run_leaves (hd : d.Named) (hn : d.Spelled) (hw : d.WellFormed)
    (hs : s.root.Named) (ho : s.outDir.Spelled) (ha : s.apiDir.Spelled)
    (hr : (run d s).result = .ok written) (hne : written ≠ []) :
    ∃ files desk tree pages,
      Book.ofProject d s = .ok (files, desk, none) ∧
      (treeOf d s desk.book.ordered).1 = .ok (tree, pages) ∧
      let after := (run d s).disk
      let places := Outline.Places.of s tree
      let toc := Outline.mentions [] tree.root
      after.fileAt (s.summaryFile.normal []) =
        some (Text.encode (Outline.page s tree (pagesApart s pages))) ∧
      Outline.lines s tree = Outline.layout false (toc.flatMap (Outline.Mention.entries places)) ∧
      (∀ m ∈ toc, ∀ link, m.link? places = some link →
        (∃ label, m.entries places = [Outline.linkLine m.way.length label link]) ∧
        (¬ Astray s pages written m → Reaches after s m link) ∧
        ∀ q, m.item = .page q → (Reaches after s m link ↔ ¬ Lost s written q)) ∧
      (∀ p ∈ pagesApart s pages,
        (∃ bytes, after.fileAt (followed s (places.pageLink p)) = some bytes) ↔ ¬ Lost s written p) ∧
      ((∀ p ∈ pages, ¬ Lost s written p) →
        (pagesWithin s pages ≠ [] → ∀ c ∈ finished tree desk.book.ordered, ∀ rest,
          c.folder ≠ some (pathText (ReferencePage.folder :: rest))) →
        ∀ m ∈ toc, ∀ link, m.link? places = some link → Reaches after s m link) := by
  obtain ⟨desk, tree, pages, h⟩ := returns_of_written hr hne
  obtain ⟨files, hbook⟩ := h.book
  have hgrown := h.grown hd hs
  refine ⟨files, desk, tree, pages, hbook, h.arranged, h.summary,
    congrArg (Outline.layout false) (Outline.ofFolder_eq _ [] tree.root), ?_, ?_, ?_⟩
  · exact fun m hm link hl =>
      ⟨Outline.Mention.entries_link hl, h.reached hd hn hw hs ho ha hm hl⟩
  · intro p hp
    have hmem : p ∈ pages := by
      unfold pagesApart at hp
      split at hp
      · cases hp
      · exact hp
    have hplace : followed s ((Outline.Places.of s tree).pageLink p) = referencePlace s p :=
      Path.link_leads (ha.join (Path.spelled_ofString _)) _
    rw [hplace]
    exact h.page_kept hd hn hw hs hmem
  · intro hkept hapart m hm link hl
    exact (h.reached hd hn hw hs ho ha hm hl).1 (hgrown.not_astray hkept hapart hm)

/-- A project with an annotated file and a page of the reference. -/
def referenceDisk : Disk :=
  ⟨[(["p"], .directory), (["p", "test"], .directory),
    (["p", "test", "a.ts"], .file (Text.encode "/// @chapter: a \"A\"\n")),
    (["p", "docs"], .directory), (["p", "docs", "api"], .directory),
    (["p", "docs", "api", "Counter.md"], .file (Text.encode "# Counter\n"))]⟩

theorem every_link_of_a_project_reaches :
    let s := Settings.ofRoot ["p"]
    let written : List Path :=
      [⟨.single, ["p", "docs", "chapters", "a.md"]⟩, ⟨.single, ["p", "docs", "SUMMARY.md"]⟩]
    referenceDisk.Named ∧ referenceDisk.Spelled ∧ referenceDisk.WellFormed ∧ s.root.Named ∧
    s.outDir.Spelled ∧ s.apiDir.Spelled ∧ (run referenceDisk s).result = .ok written ∧ written ≠ [] ∧
    ∃ files desk tree pages,
      Book.ofProject referenceDisk s = .ok (files, desk, none) ∧
      (treeOf referenceDisk s desk.book.ordered).1 = .ok (tree, pages) ∧
      pages = [⟨"Counter", "Counter", "Counter.md"⟩] ∧
      (∀ m ∈ Outline.mentions [] tree.root, ∀ link, m.link? (.of s tree) = some link →
        Reaches (run referenceDisk s).disk s m link) ∧
      ∀ p ∈ pages, ∃ bytes, (run referenceDisk s).disk.fileAt
        (followed s ((Outline.Places.of s tree).pageLink p)) = some bytes := by
  intro s written
  have hd : referenceDisk.Named := by decide
  have hn : referenceDisk.Spelled := by decide
  have hw : referenceDisk.WellFormed := Disk.wellFormed_of_entries (by decide)
  have hs : s.root.Named := by decide
  have ho : s.outDir.Spelled := by decide
  have ha : s.apiDir.Spelled := by decide
  have hr : (run referenceDisk s).result = .ok written := by decide +kernel
  have hne : written ≠ [] := by decide
  refine ⟨hd, hn, hw, hs, ho, ha, hr, hne, ?_⟩
  obtain ⟨files, desk, tree, pages, hbook, htree, -, -, -, happart, hreach⟩ :=
    links_reach_what_the_run_leaves hd hn hw hs ho ha hr hne
  have hpages : pages = [⟨"Counter", "Counter", "Counter.md"⟩] := by
    obtain ⟨warnings, hfound⟩ := found_of_treeOf htree
    have hall : (ReferencePage.collect referenceDisk s.apiDir).toOption.map Prod.fst =
        some [⟨"Counter", "Counter", "Counter.md"⟩] := by decide +kernel
    rw [hfound] at hall
    exact Option.some.inj hall
  have hkept : ∀ p ∈ pages, ¬ Lost s written p := by
    rw [hpages]
    decide +kernel
  exact ⟨files, desk, tree, pages, hbook, htree, hpages, hreach hkept fun hin => absurd rfl hin,
    fun p hp => (happart p hp).mpr (hkept p hp)⟩

/-- The pages of the reference may stand below the directory that the run clears. Then the run
returns, and its table of contents links a page that is gone. -/
theorem a_run_can_clear_a_page_that_it_links :
    let s := { Settings.ofRoot ["p"] with outDir := Settings.placeIn ["p"] "docs" }
    (run referenceDisk s).result =
      .ok [⟨.single, ["p", "docs", "a.md"]⟩, ⟨.single, ["p", "docs", "SUMMARY.md"]⟩] ∧
    (run referenceDisk s).disk.fileAt ["p", "docs", "SUMMARY.md"] = some (Text.encode
      "# Table of Contents\n\n* [Introduction](README.md)\n* [A](a.md)\n\n## API Reference\n\n* [Counter](api/Counter.md)\n") ∧
    followed s "api/Counter.md" = ["p", "docs", "api", "Counter.md"] ∧
    referenceDisk.fileAt ["p", "docs", "api", "Counter.md"] ≠ none ∧
    (run referenceDisk s).disk.fileAt ["p", "docs", "api", "Counter.md"] = none := by
  decide +kernel

end Publish

end Sourcebook
