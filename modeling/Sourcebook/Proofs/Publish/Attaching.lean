-- A run with the reference in its tree, beside one with the reference apart. Both have the same
-- chapters at the same places, and the same links to folders, but for those in the folder of the
-- reference.
import Mathlib
import Sourcebook.Proofs.Book.Readings
import Sourcebook.Proofs.Contents.Held
import Sourcebook.Proofs.Publish.Following

namespace Sourcebook

/-! ## A change in one folder at the top -/

namespace Folder

variable {g : FolderInfo → FolderInfo} {segment : String} {way : List String}

/-- A change on a way leaves the folders on other ways as they are. -/
theorem find?_change_apart (hg : ∀ i, (g i).segment = i.segment) {n : String} (hn : n ≠ segment)
    (rest : List String) (f : Folder) :
    (change (·.withInfo g) (segment :: way) f).find? (n :: rest) = f.find? (n :: rest) := by
  rw [find?, find?, child?_change hg, if_neg hn]

end Folder

/-! ## What the override files say elsewhere -/

namespace Arrange

variable {disk : Disk} {metaName : String} {g : FolderInfo → FolderInfo} {segment : String}
  {way : List String}

/-- A change in one folder at the top leaves the rules of the other folders as they are. -/
theorem rules_change_apart (hg : ∀ i, (g i).segment = i.segment) {v : List String}
    (hv : ¬ [segment] <+: v) (f : Folder) :
    rules disk metaName (f.change (·.withInfo g) (segment :: way)) v = rules disk metaName f v := by
  cases v with
  | nil => rw [rules_nil, rules_nil, Folder.change_info]
  | cons n rest =>
    have hn : n ≠ segment := by
      rintro rfl
      exact hv ⟨rest, rfl⟩
    unfold rules
    rw [Folder.find?_change_apart hg hn]

end Arrange

/-- What is put into one folder at the top leaves the rules of the other folders as they are. -/
theorem Tree.rules_foldl_apart {disk : Disk} {metaName segment : String} {v : List String}
    (hv : ¬ [segment] <+: v) {additions : List Addition}
    (h : ∀ a ∈ additions, ∃ rest, a.way = segment :: rest) (t : Tree) :
    Arrange.rules disk metaName (additions.foldl add t).root v =
      Arrange.rules disk metaName t.root v := by
  induction additions generalizing t with
  | nil => rfl
  | cons a as ih =>
    obtain ⟨rest, hway⟩ := h a List.mem_cons_self
    rw [List.foldl_cons, ih fun b hb => h b (List.mem_cons_of_mem _ hb), add_root, hway]
    exact Arrange.rules_change_apart a.effect_segment hv _

/-- Where a chapter comes to stand is decided in its folder and those above. -/
theorem Stay.last_congr {rules rules' : Rules} {way : List String}
    (h : ∀ v, v <+: way → rules v = rules' v) (id title : String) :
    last rules id way title = last rules' id way title := by
  induction way generalizing rules rules' with
  | nil =>
    rw [last_nil, last_nil]
    unfold first
    rw [h [] List.nil_prefix]
  | cons segment way ih =>
    have hinside : last (rules.inside segment) id way title = last (rules'.inside segment) id way title :=
      ih fun v hv => h (segment :: v) (List.cons_prefix_cons.mpr ⟨rfl, hv⟩)
    rw [last_cons, last_cons, hinside]
    unfold rise
    rw [h [] List.nil_prefix]

/-- Whether a folder is hidden is decided in the folders above. -/
theorem Rules.hide_congr {rules rules' : Rules} {way : List String}
    (h : ∀ v, v <+: way → rules v = rules' v) : rules.hide way = rules'.hide way := by
  induction way generalizing rules rules' with
  | nil => rfl
  | cons segment way ih =>
    have hinside : (rules.inside segment).hide way = (rules'.inside segment).hide way :=
      ih fun v hv => h (segment :: v) (List.cons_prefix_cons.mpr ⟨rfl, hv⟩)
    rw [hide, hide, hinside, h [] List.nil_prefix]

/-! ## The two settings -/

namespace Settings

/-- The reference stands in the tree. -/
def attached (s : Settings) : Settings := { s with apiInTree := true }

/-- The reference comes in a section of its own. -/
def apart (s : Settings) : Settings := { s with apiInTree := false }

end Settings

namespace Publish

open Sourcebook.Tree (plot pathText)

variable {d : Disk} {s : Settings} {chapters : List Chapter} {pages : List ReferencePage}
  {tree₁ tree₂ : Tree}

/-- The reference has a page, and the way leads into its folder. -/
def Within (pages : List ReferencePage) (way : List String) : Prop :=
  pages ≠ [] ∧ [ReferencePage.folder] <+: way

theorem Within.further {v way : List String} (hv : v <+: way) (h : Within pages v) :
    Within pages way :=
  ⟨h.1, h.2.trans hv⟩

theorem planting_attached (s : Settings) (chapters : List Chapter) (pages : List ReferencePage) :
    ∃ more, planting s.attached chapters pages = planting s.apart chapters pages ++ more ∧
      (pages = [] → more = []) ∧ ∀ a ∈ more, ∃ rest, a.way = ReferencePage.folder :: rest := by
  cases pages with
  | nil => exact ⟨[], (List.append_nil _).symm, fun _ => rfl, fun a ha => nomatch ha⟩
  | cons p ps =>
    refine ⟨.mount ReferencePage.folder s.apiDir ::
      (p :: ps).map (fun p => .page p (pathText p.way)), ?_, nofun, ?_⟩
    · unfold planting
      rw [List.append_assoc]
      rfl
    · intro a ha
      rcases List.mem_cons.mp ha with rfl | ha
      · exact ⟨[], show Tree.segments ReferencePage.folder = _ by decide⟩
      · obtain ⟨q, -, rfl⟩ := List.mem_map.mp ha
        exact ⟨_, Tree.segments_pathText fun n hn => ReferencePage.isPart_way hn⟩

/-- Outside the folder of the reference the same override files count. -/
theorem rules_attached (d : Disk) (s : Settings) (chapters : List Chapter) {v : List String}
    (hv : ¬ Within pages v) :
    Arrange.rules d s.attached.metaName (planted s.attached chapters pages).root v =
      Arrange.rules d s.apart.metaName (planted s.apart chapters pages).root v := by
  obtain ⟨more, hplanting, hnone, hways⟩ := planting_attached s chapters pages
  unfold planted Tree.made
  rw [hplanting, List.foldl_append]
  by_cases hpages : pages = []
  · rw [hnone hpages]
    rfl
  · exact Tree.rules_foldl_apart (fun hin => hv ⟨hpages, hin⟩) hways _

/-- A chapter whose source is not in the folder of the reference comes to stand at the same place,
with the same title. -/
theorem stayOf_attached (d : Disk) (s : Settings) (chapters : List Chapter) {c : Chapter}
    (hc : ¬ Within pages (plot chapters c)) :
    stayOf d s.attached chapters pages c = stayOf d s.apart chapters pages c :=
  Stay.last_congr (fun _ hv => rules_attached d s chapters fun hin => hc (hin.further hv)) _ _

theorem settled_attached (d : Disk) (s : Settings) (chapters : List Chapter) {c : Chapter}
    (hc : ¬ Within pages (plot chapters c)) :
    settled d s.attached chapters pages c = settled d s.apart chapters pages c := by
  unfold settled
  rw [stayOf_attached d s chapters hc]

/-! ## The two trees -/

/-- Both trees show the same folders, but for those in the folder of the reference. -/
theorem shown_attached (h₁ : Grown d s.attached chapters tree₁ pages)
    (h₂ : Grown d s.apart chapters tree₂ pages) {way : List String} {segment : String}
    (hout : ¬ Within pages (way ++ [segment])) :
    (∃ m ∈ Outline.mentions [] tree₁.root, m.way = way ∧ m.item = .folder segment) ↔
      ∃ m ∈ Outline.mentions [] tree₂.root, m.way = way ∧ m.item = .folder segment := by
  have hhide :
      (Arrange.rules d s.attached.metaName (planted s.attached chapters pages).root).hide
        (way ++ [segment]) =
      (Arrange.rules d s.apart.metaName (planted s.apart chapters pages).root).hide
        (way ++ [segment]) :=
    Rules.hide_congr fun _ hv => rules_attached d s chapters fun hin => hout (hin.further hv)
  -- A chapter at or below such a folder has its source there.
  have hstay : ∀ c, way ++ [segment] <+: plot chapters c →
      stayOf d s.attached chapters pages c = stayOf d s.apart chapters pages c := by
    intro c hway
    refine stayOf_attached d s chapters fun hin => hout ⟨hin.1, ?_⟩
    exact List.prefix_of_prefix_length_le hin.2 hway (by simp)
  have hchapters : (∃ c ∈ chapters, way ++ [segment] <+:
        (stayOf d s.attached chapters pages c).way) ↔
      ∃ c ∈ chapters, way ++ [segment] <+: (stayOf d s.apart chapters pages c).way := by
    constructor
    · rintro ⟨c, hc, hway⟩
      exact ⟨c, hc, hstay c (hway.trans (Grown.way_upward ..)) ▸ hway⟩
    · rintro ⟨c, hc, hway⟩
      exact ⟨c, hc, (hstay c (hway.trans (Grown.way_upward ..))).symm ▸ hway⟩
  have hpages : ¬ ∃ p ∈ pagesWithin s.attached pages, way ++ [segment] <+: p.way := by
    rintro ⟨p, hp, hway⟩
    refine hout ⟨List.ne_nil_of_mem (mem_pagesWithin hp), ?_⟩
    exact List.prefix_of_prefix_length_le (folder_prefix_way p) hway (by simp)
  have hnone : ¬ ∃ p ∈ pagesWithin s.apart pages, way ++ [segment] <+: p.way := by
    rintro ⟨p, hp, -⟩
    cases hp
  rw [h₁.shown, h₂.shown, or_iff_left hpages, or_iff_left hnone, hchapters, hhide]

/-- The table of contents has this link to the folder. -/
def LinksFolder (s : Settings) (t : Tree) (way : List String) (segment link : String) : Prop :=
  ∃ m ∈ Outline.mentions [] t.root, m.way = way ∧ m.item = .folder segment ∧
    m.link? (.of s t) = some link

theorem linksFolder_iff {t : Tree} {way : List String} {segment link : String} :
    LinksFolder s t way segment link ↔
      (∃ m ∈ Outline.mentions [] t.root, m.way = way ∧ m.item = .folder segment) ∧
        way ≠ [] ∧ link = (Outline.Places.of s t).folderLink (way ++ [segment]) := by
  have hlink : ∀ m : Outline.Mention, m.way = way → m.item = .folder segment →
      (m.link? (.of s t) = some link ↔
        way ≠ [] ∧ link = (Outline.Places.of s t).folderLink (way ++ [segment])) := by
    rintro m rfl hi
    simp only [Outline.Mention.link?, hi, Option.ite_none_left_eq_some, Option.some.injEq, ne_eq,
      eq_comm (a := link)]
  constructor
  · rintro ⟨m, hm, hway, hi, hl⟩
    exact ⟨⟨m, hm, hway, hi⟩, (hlink m hway hi).mp hl⟩
  · rintro ⟨⟨m, hm, hway, hi⟩, hl⟩
    exact ⟨m, hm, hway, hi, (hlink m hway hi).mpr hl⟩

/-- Outside the folder of the reference both tables of contents have the same links to folders. -/
theorem linksFolder_attached (h₁ : Grown d s.attached chapters tree₁ pages)
    (h₂ : Grown d s.apart chapters tree₂ pages) {way : List String} {segment : String}
    (hout : ¬ Within pages (way ++ [segment])) (link : String) :
    LinksFolder s.attached tree₁ way segment link ↔ LinksFolder s.apart tree₂ way segment link := by
  have hdirectory : (Outline.Places.of s.attached tree₁).directory (way ++ [segment]) =
      (Outline.Places.of s.apart tree₂).directory (way ++ [segment]) := by
    rw [h₁.directory_without, h₂.directory_without]
    · rfl
    · exact Or.inl rfl
    · rw [Within, not_and_or, not_not] at hout
      exact hout
  have hfolder : (Outline.Places.of s.attached tree₁).folderLink (way ++ [segment]) =
      (Outline.Places.of s.apart tree₂).folderLink (way ++ [segment]) := by
    unfold Outline.Places.folderLink
    rw [hdirectory]
    rfl
  rw [linksFolder_iff, linksFolder_iff, shown_attached h₁ h₂ hout, hfolder]

/-! ## The two runs -/

theorem ofProject_attached (d : Disk) (s : Settings) :
    Book.ofProject d s.attached = Book.ofProject d s ∧
      Book.ofProject d s.apart = Book.ofProject d s :=
  ⟨Book.ofProject_congr (s := s.attached) (t := s) ⟨rfl, rfl, rfl⟩ rfl d,
    Book.ofProject_congr (s := s.apart) (t := s) ⟨rfl, rfl, rfl⟩ rfl d⟩

/-- Whether the reference stands in the tree or apart from it, a run writes the same pages, with
the same texts, for all chapters whose source is not in the folder that the reference takes, and
has the same links to all folders outside of it. In that folder, links to folders then lead to the
directories of the reference. -/
theorem attaching_the_reference_stays_in_its_folder (hd : d.Named) (hs : s.root.Named)
    (ha : s.apiDir.Spelled) {written₁ written₂ : List Path}
    (h₁ : (run d s.attached).result = .ok written₁)
    (h₂ : (run d s.apart).result = .ok written₂) :
    ∃ files desk, Book.ofProject d s = .ok (files, desk, none) ∧
      let chapters := desk.book.ordered
      (chapters = [] ∧ written₁ = [] ∧ written₂ = [] ∨
      ∃ tree₁ tree₂ pages,
        (treeOf d s.attached chapters).1 = .ok (tree₁, pages) ∧
        (treeOf d s.apart chapters).1 = .ok (tree₂, pages) ∧
        written₁ = (finished tree₁ chapters).map (pageOf s) ++ [s.summaryFile] ∧
        written₂ = (finished tree₂ chapters).map (pageOf s) ++ [s.summaryFile] ∧
        (∀ c ∈ chapters, ¬ Within pages (plot chapters c) →
          ∃ e, tree₁.chapter? c.id = some e ∧ tree₂.chapter? c.id = some e ∧
            pageOf s e ∈ written₁ ∧ pageOf s e ∈ written₂ ∧
            ((pageOf s e).normal [] ≠ s.summaryFile.normal [] →
              (run d s.attached).disk.fileAt ((pageOf s e).normal []) =
                some (Text.encode e.render) ∧
              (run d s.apart).disk.fileAt ((pageOf s e).normal []) =
                some (Text.encode e.render))) ∧
        ((∀ c ∈ chapters, ¬ Within pages (plot chapters c)) → written₁ = written₂) ∧
        (∀ way segment link, ¬ Within pages (way ++ [segment]) →
          (LinksFolder s.attached tree₁ way segment link ↔
            LinksFolder s.apart tree₂ way segment link)) ∧
        ∀ way segment link rest, LinksFolder s.attached tree₁ way segment link → pages ≠ [] →
          way ++ [segment] = ReferencePage.folder :: rest →
          followed s link = s.apiDir.normal [] ++ rest) := by
  obtain ⟨files, desk, hbook₁, hcases₁⟩ := run_cases h₁
  obtain ⟨files', desk', hbook₂, hcases₂⟩ := run_cases h₂
  rw [(ofProject_attached d s).1] at hbook₁
  rw [(ofProject_attached d s).2, hbook₁] at hbook₂
  cases hbook₂
  refine ⟨files, desk, hbook₁, ?_⟩
  intro chapters
  obtain ⟨hnone, hw₁⟩ | ⟨tree₁, pages, hr₁⟩ := hcases₁
  · obtain ⟨-, hw₂⟩ | ⟨tree₂, pages, hr₂⟩ := hcases₂
    · exact Or.inl ⟨hnone, hw₁, hw₂⟩
    · exact absurd hnone hr₂.chapters
  obtain ⟨hnone, -⟩ | ⟨tree₂, pages', hr₂⟩ := hcases₂
  · exact absurd hnone hr₁.chapters
  obtain ⟨warnings, hfound⟩ := found_of_treeOf hr₁.arranged
  obtain ⟨warnings', hfound'⟩ := found_of_treeOf hr₂.arranged
  obtain rfl : pages = pages' := congrArg Prod.fst (Except.ok.inj (hfound.symm.trans hfound'))
  have hgrown₁ := hr₁.grown hd hs
  have hgrown₂ := hr₂.grown hd hs
  refine Or.inr ⟨tree₁, tree₂, pages, hr₁.arranged, hr₂.arranged, hr₁.written, hr₂.written, ?_, ?_,
    fun way segment link hout => linksFolder_attached hgrown₁ hgrown₂ hout link, ?_⟩
  · intro c hc hout
    have hsame := settled_attached d s chapters hout
    obtain ⟨hstands₁, hmem₁, hfile₁⟩ := hr₁.chapter hd hs hc
    obtain ⟨hstands₂, hmem₂, hfile₂⟩ := hr₂.chapter hd hs hc
    rw [← hsame] at hstands₂ hmem₂ hfile₂
    exact ⟨_, hstands₁, hstands₂, hmem₁, hmem₂, fun hne => ⟨hfile₁ hne, hfile₂ hne⟩⟩
  · intro hall
    rw [hr₁.written, hr₂.written, hgrown₁.finished, hgrown₂.finished]
    exact congrArg (fun cs => cs.map (pageOf s) ++ [s.summaryFile])
      (List.map_congr_left fun c hc => settled_attached d s chapters (hall c hc))
  · rintro way segment link rest ⟨m, hm, rfl, hi, hl⟩ hne hway
    exact hgrown₁.folder_within hd ha hm hi hl hne hway

/-! ## A source folder that is named as the folder of the reference -/

/-- A project with a source folder of that name. Its override file has a title for a chapter. -/
def attachingDisk : Disk :=
  ⟨[(["p"], .directory), (["p", "test"], .directory),
    (["p", "test", "_meta.json"], .file (Text.encode "\x7b\"a\": \"A\"\x7d")),
    (["p", "test", "a.ts"], .file (Text.encode "/// @chapter: a \"A\"\n")),
    (["p", "test", "api"], .directory),
    (["p", "test", "api", "_meta.json"], .file (Text.encode "\x7b\"b\": \"Better\"\x7d")),
    (["p", "test", "api", "b.ts"], .file (Text.encode "/// @chapter: b \"B\"\n")),
    (["p", "test", "api", "x"], .directory),
    (["p", "test", "api", "x", "c.ts"], .file (Text.encode "/// @chapter: c \"C\"\n")),
    (["p", "docs"], .directory), (["p", "docs", "api"], .directory),
    (["p", "docs", "api", "_meta.json"],
      .file (Text.encode "\x7b\"Counter\": \"Counter\", \"x\": \"x\"\x7d")),
    (["p", "docs", "api", "Counter.md"], .file (Text.encode "# Counter\n"))]⟩

def attachingFiles : List Location :=
  [["p", "test", "a.ts"], ["p", "test", "api", "b.ts"], ["p", "test", "api", "x", "c.ts"]]

def attachingDesk : Desk :=
  (Desk.readSources attachingDisk (.ofRoot ["p"]) ⟨.empty, some attachingFiles⟩ attachingFiles).1

def attachingPages : List Path :=
  [⟨.single, ["p", "docs", "chapters", "a.md"]⟩, ⟨.single, ["p", "docs", "chapters", "api", "b.md"]⟩,
    ⟨.single, ["p", "docs", "chapters", "api", "x", "c.md"]⟩, ⟨.single, ["p", "docs", "SUMMARY.md"]⟩]

/-- What a run over this project leaves and gives, from its tree. -/
def attachingRun (attached : Bool) : Disk × Except RunError (List Path) :=
  let s := { Settings.ofRoot ["p"] with apiInTree := attached }
  match (treeOf attachingDisk s attachingDesk.book.chapters).1 with
  | .error t => (attachingDisk, .error (.trouble t))
  | .ok (tree, pages) =>
    let w := writeAll attachingDisk s tree pages attachingDesk.book.chapters
    (w.1, w.2.1)

def attachingTitle (attached : Bool) : String := if attached then "B" else "Better"

def attachingContents (attached : Bool) : String :=
  "# Table of Contents\n\n* [Introduction](README.md)\n* [A](chapters/a.md)\n\n" ++
    if attached then
      "## api\n\n* [Counter](api/Counter.md)\n* [x](api/x/)\n" ++
        "  * [C](chapters/api/x/c.md)\n* [B](chapters/api/b.md)\n"
    else
      "## api\n\n* [Better](chapters/api/b.md)\n* [x](chapters/api/x/)\n" ++
        "  * [C](chapters/api/x/c.md)\n\n## API Reference\n\n* [Counter](api/Counter.md)\n"

/-- All that is computed of this project. The parts are evaluated one by one: the evaluations of both
runs at once take far more memory. -/
theorem attachingDisk_told :
    ((Settings.ofRoot ["p"]).selected.mapM (fun pattern => do
        (Discovery.ofPattern attachingDisk (.ofRoot ["p"]) (← Glob.parse pattern)).mapError .trouble) =
          .ok [attachingFiles, []] ∧
      [attachingFiles, []].flatten.Pairwise (Location.before · ·)) ∧
    (Desk.readSources attachingDisk (.ofRoot ["p"]) ⟨.empty, some attachingFiles⟩
        attachingFiles).2 = none ∧
    attachingDesk.book.chapters.Pairwise (·.priority ≤ ·.priority) ∧
    (∃ c ∈ attachingDesk.book.chapters, c.id = "a" ∧
      ¬ [ReferencePage.folder] <+: plot attachingDesk.book.chapters c) ∧
    ∀ b, (attachingRun b).2 = .ok attachingPages ∧
      (attachingRun b).1.fileAt ["p", "docs", "chapters", "api", "b.md"] =
        some (Text.encode ("---\ntitle: " ++ attachingTitle b ++ "\n---\n\n")) ∧
      (attachingRun b).1.fileAt ["p", "docs", "SUMMARY.md"] =
        some (Text.encode (attachingContents b)) := by
  refine ⟨⟨?_, ?_⟩, ?_, ?_, ?_, Bool.forall_bool.mpr ⟨⟨?_, ?_, ?_⟩, ?_, ?_, ?_⟩⟩
  all_goals decide +kernel

theorem attachingDisk_read (b : Bool) :
    let s := { Settings.ofRoot ["p"] with apiInTree := b }
    Discovery.files attachingDisk s = .ok attachingFiles ∧
      Desk.readSources attachingDisk s ⟨.empty, some attachingFiles⟩ attachingFiles =
        (attachingDesk, none) := by
  intro s
  have hreads : s.ReadsAs (.ofRoot ["p"]) := ⟨rfl, rfl, rfl⟩
  obtain ⟨⟨hfound, hrising⟩, hstop, -⟩ := attachingDisk_told
  rw [Discovery.files_congr hreads, Desk.readSources_congr hreads rfl]
  exact ⟨Discovery.files_of_rising [attachingFiles, []] hfound hrising, Prod.ext rfl hstop⟩

theorem attachingDisk_run (b : Bool) :
    let s := { Settings.ofRoot ["p"] with apiInTree := b }
    ((run attachingDisk s).disk, (run attachingDisk s).result) = attachingRun b := by
  obtain ⟨-, -, hrising, ⟨c, hc, -⟩, -⟩ := attachingDisk_told
  exact run_of_rising (attachingDisk_read b).1 (attachingDisk_read b).2 hrising
    (List.ne_nil_of_mem hc)

theorem attachingDisk_result (b : Bool) :
    (run attachingDisk { Settings.ofRoot ["p"] with apiInTree := b }).result = .ok attachingPages := by
  obtain ⟨-, -, -, -, hruns⟩ := attachingDisk_told
  exact (congrArg Prod.snd (attachingDisk_run b)).trans (hruns b).1

theorem a_chapter_outside_is_the_same_in_both_runs :
    let s := Settings.ofRoot ["p"]
    attachingDisk.Named ∧ s.root.Named ∧ s.apiDir.Spelled ∧
    (run attachingDisk s.attached).result = .ok attachingPages ∧
    (run attachingDisk s.apart).result = .ok attachingPages ∧
    ∃ files desk tree₁ tree₂ pages,
      Book.ofProject attachingDisk s = .ok (files, desk, none) ∧
      (treeOf attachingDisk s.attached desk.book.ordered).1 = .ok (tree₁, pages) ∧
      (treeOf attachingDisk s.apart desk.book.ordered).1 = .ok (tree₂, pages) ∧
      ∃ c ∈ desk.book.ordered, c.id = "a" ∧
        ∃ e, tree₁.chapter? c.id = some e ∧ tree₂.chapter? c.id = some e := by
  intro s
  have hd : attachingDisk.Named := by decide
  have hs : s.root.Named := by decide
  have ha : s.apiDir.Spelled := by decide
  refine ⟨hd, hs, ha, attachingDisk_result true, attachingDisk_result false, ?_⟩
  obtain ⟨files, desk, hbook, ⟨-, hnil, -⟩ | ⟨tree₁, tree₂, pages, htree₁, htree₂, -, -, hsame, -⟩⟩ :=
    attaching_the_reference_stays_in_its_folder hd hs ha (attachingDisk_result true)
      (attachingDisk_result false)
  · cases hnil
  obtain ⟨hfiles, hread⟩ := attachingDisk_read false
  obtain rfl : attachingDesk = desk := by
    have hboth := (Book.ofProject_of_read hfiles hread).symm.trans hbook
    exact congrArg (·.2.1) (Except.ok.inj hboth)
  obtain ⟨-, -, hrising, houtside, -⟩ := attachingDisk_told
  rw [← Book.ordered_of_rising hrising] at houtside
  obtain ⟨c, hc, hid, hplot⟩ := houtside
  obtain ⟨e, he₁, he₂, -⟩ := hsame c hc fun hin => hplot hin.2
  exact ⟨files, _, tree₁, tree₂, pages, hbook, htree₁, htree₂, c, hc, hid, e, he₁, he₂⟩

/-- The reference takes a source folder of its name. Then a title from the override file of that
folder does not count, and the link to a folder of chapters leads into the reference. -/
theorem the_reference_can_take_a_source_folder :
    let attached := run attachingDisk (Settings.ofRoot ["p"]).attached
    let apart := run attachingDisk (Settings.ofRoot ["p"]).apart
    let page : Location := ["p", "docs", "chapters", "api", "b.md"]
    let summary : Location := ["p", "docs", "SUMMARY.md"]
    (attached.result = .ok attachingPages ∧
      attached.disk.fileAt page = some (Text.encode "---\ntitle: B\n---\n\n") ∧
      attached.disk.fileAt summary = some (Text.encode
        ("# Table of Contents\n\n* [Introduction](README.md)\n* [A](chapters/a.md)\n\n" ++
          "## api\n\n* [Counter](api/Counter.md)\n* [x](api/x/)\n" ++
          "  * [C](chapters/api/x/c.md)\n* [B](chapters/api/b.md)\n"))) ∧
    apart.result = .ok attachingPages ∧
      apart.disk.fileAt page = some (Text.encode "---\ntitle: Better\n---\n\n") ∧
      apart.disk.fileAt summary = some (Text.encode
        ("# Table of Contents\n\n* [Introduction](README.md)\n* [A](chapters/a.md)\n\n" ++
          "## api\n\n* [Better](chapters/api/b.md)\n* [x](chapters/api/x/)\n" ++
          "  * [C](chapters/api/x/c.md)\n\n## API Reference\n\n* [Counter](api/Counter.md)\n")) := by
  obtain ⟨-, -, -, -, hruns⟩ := attachingDisk_told
  have hdisk : ∀ b, (run attachingDisk { Settings.ofRoot ["p"] with apiInTree := b }).disk =
      (attachingRun b).1 := fun b => congrArg Prod.fst (attachingDisk_run b)
  intro attached apart page summary
  obtain ⟨-, hpage, hsummary⟩ := hruns true
  obtain ⟨-, hpage', hsummary'⟩ := hruns false
  rw [← hdisk] at hpage hsummary hpage' hsummary'
  exact ⟨⟨attachingDisk_result true, hpage, hsummary⟩, attachingDisk_result false, hpage', hsummary'⟩

end Publish

end Sourcebook
