-- What the table of contents mentions stands in the tree: every mention is listed by a folder, and
-- a folder is mentioned when it is not empty and nothing on its way is hidden. A mention with a link
-- is one line.
import Mathlib
import Sourcebook.Proofs.Contents.Mentions

namespace Sourcebook

open Folder (Every Tidy)

namespace Folder

/-- Above a folder that is not empty no folder is. -/
theorem isEmpty_of_find? {f g : Folder} {way : List String} (h : f.find? way = some g)
    (hf : f.isEmpty = true) : g.isEmpty = true := by
  induction way generalizing f with
  | nil =>
    cases h
    exact hf
  | cons segment way ih =>
    obtain ⟨info, children⟩ := f
    obtain ⟨c, hc, -, hg⟩ := exists_of_find? h
    exact ih hg ((isEmpty_mk.mp hf).2.2 c hc)

/-- A folder that is not empty holds a chapter or a page, there or further down. -/
theorem exists_of_not_isEmpty {f : Folder} (hf : f.Tidy) (h : f.isEmpty = false) :
    ∃ way g, f.find? way = some g ∧ (g.info.chapters ≠ [] ∨ g.info.pages ≠ []) := by
  induction f with
  | mk info children ih =>
    by_cases hchapters : info.chapters = []
    · by_cases hpages : info.pages = []
      · have hsome : ¬ ∀ c ∈ children, c.isEmpty = true := by
          intro hall
          rw [isEmpty_mk.mpr ⟨hchapters, hpages, hall⟩] at h
          cases h
        push Not at hsome
        obtain ⟨c, hc, hne⟩ := hsome
        obtain ⟨way, g, hg, hin⟩ := ih c hc (hf.child hc) (by simpa using hne)
        exact ⟨c.segment :: way, g, (find?_inside hf hc way).trans hg, hin⟩
      · exact ⟨[], _, rfl, Or.inr hpages⟩
    · exact ⟨[], _, rfl, Or.inl hchapters⟩

/-- A folder is not empty when a chapter or a page stands in it. -/
theorem isEmpty_eq_false {f : Folder} (hf : f.Tidy) : f.isEmpty = false ↔
    (∃ id way, way ∈ f.homes id) ∨ ∃ key way, way ∈ f.sites (FolderInfo.pageCount key) := by
  constructor
  · intro h
    obtain ⟨way, g, hg, hin⟩ := exists_of_not_isEmpty hf h
    rcases hin with hin | hin
    · obtain ⟨id, hid⟩ := List.exists_mem_of_ne_nil _ hin
      exact Or.inl ⟨id, way, (mem_sites_iff hf).mpr ⟨g, hg, (List.count_pos_iff.mpr hid).ne'⟩⟩
    · obtain ⟨p, hp⟩ := List.exists_mem_of_ne_nil _ hin
      exact Or.inr ⟨p.key, way, (mem_sites_iff hf).mpr
        ⟨g, hg, (List.count_pos_iff.mpr (List.mem_map_of_mem hp)).ne'⟩⟩
  · rintro (⟨id, way, h⟩ | ⟨key, way, h⟩) <;> refine Bool.eq_false_iff.mpr fun he => ?_
    · rw [homes_of_isEmpty id he] at h
      cases h
    · rw [sites_of_isEmpty (fun i _ hpages => by simp [FolderInfo.pageCount, hpages]) he] at h
      cases h

end Folder

namespace Outline

/-- The mention of a folder inside, as the folder around makes it. -/
def folderMention (way : List String) (c : Folder) : Mention := ⟨way, .folder c.segment, c.info.label⟩

/-- A folder mentions what it lists: an item, a folder that is not empty, and what that one
mentions. -/
theorem mem_mentions_mk {way : List String} {info : FolderInfo} {children : List Folder}
    (hn : (children.map Folder.segment).Nodup) {m : Mention} :
    m ∈ mentions way (.mk info children) ↔
      (∃ item ∈ info.items, (∀ segment, item ≠ .folder segment) ∧ m = ⟨way, item, ""⟩) ∨
      ∃ c ∈ children, .folder c.segment ∈ info.items ∧ c.isEmpty = false ∧
        (m = folderMention way c ∨ m ∈ mentions (way ++ [c.segment]) c) := by
  rw [mentions, List.mem_flatMap]
  constructor
  · rintro ⟨item, hitem, hm⟩
    cases item with
    | folder segment =>
      right
      simp only [mentionsOf_eq, lookup_segment] at hm
      cases hc : children.find? (·.segment == segment) with
      | none => simp [hc] at hm
      | some c =>
        have hs : c.segment = segment := by simpa using List.find?_some hc
        subst hs
        cases he : c.isEmpty with
        | true => simp [hc, he] at hm
        | false =>
          refine ⟨c, List.mem_of_find?_eq_some hc, hitem, he, ?_⟩
          simpa [hc, he, folderMention] using hm
    | chapter id => exact Or.inl ⟨_, hitem, by simp, by simpa using hm⟩
    | page p => exact Or.inl ⟨_, hitem, by simp, by simpa using hm⟩
    | separator t => exact Or.inl ⟨_, hitem, by simp, by simpa using hm⟩
  · rintro (⟨item, hitem, hne, rfl⟩ | ⟨c, hc, hitem, he, hm⟩)
    · refine ⟨item, hitem, ?_⟩
      cases item with
      | folder segment => exact absurd rfl (hne segment)
      | chapter id => simp
      | page p => simp
      | separator t => simp
    · refine ⟨_, hitem, ?_⟩
      simp only [mentionsOf_eq, lookup_segment, Folder.find?_segment hn hc, he]
      simpa [folderMention] using hm

/-- What is mentioned is an item of a folder, and a folder that is mentioned is not empty. -/
theorem mem_mentions {f : Folder} (hf : f.Tidy) {way : List String} {m : Mention}
    (h : m ∈ mentions way f) : ∃ v g, m.way = way ++ v ∧ f.find? v = some g ∧ m.item ∈ g.info.items ∧
      ∀ segment, m.item = .folder segment →
        ∃ c, f.find? (v ++ [segment]) = some c ∧ c.isEmpty = false ∧ m.label = c.info.label := by
  induction f generalizing way with
  | mk info children ih =>
    rcases (mem_mentions_mk hf.nodup).mp h with ⟨item, hitem, hne, rfl⟩ | ⟨c, hc, hitem, he, rfl | hm⟩
    · exact ⟨[], _, by simp, rfl, hitem, fun segment hs => absurd hs (hne segment)⟩
    · refine ⟨[], _, by simp [folderMention], rfl, hitem, fun segment hs => ?_⟩
      obtain rfl := Item.folder.inj hs
      exact ⟨c, (Folder.find?_inside hf hc []).trans rfl, he, rfl⟩
    · obtain ⟨v, g, hway, hg, hin, hfolder⟩ := ih c hc (hf.child hc) hm
      refine ⟨c.segment :: v, g, by simp [hway], (Folder.find?_inside hf hc v).trans hg, hin, ?_⟩
      intro segment hs
      obtain ⟨b, hb, hrest⟩ := hfolder segment hs
      exact ⟨b, (Folder.find?_inside hf hc _).trans hb, hrest⟩

/-- A folder inside that is not empty is listed where its name is not hidden. -/
theorem listed_iff {disk : Disk} {metaName : String} {f c : Folder}
    (hl : Arrange.ListsFolders disk metaName f) (hc : c ∈ f.children) (he : c.isEmpty = false) :
    .folder c.segment ∈ f.info.items ↔
      Override.hides (Arrange.rules disk metaName f []) c.segment = false := by
  rw [Arrange.rules_nil, ← List.count_pos_iff, hl c hc he]
  cases Override.hides (Arrange.entriesAt disk metaName f.info) c.segment <;> simp

/-- A folder mentions a folder inside that is not empty and not hidden. -/
theorem mentions_here {f : Folder} (hf : f.Tidy) (way : List String) (segment : String) :
    (∃ m ∈ mentions way f, m.way = way ∧ m.item = .folder segment) ↔
      ∃ c ∈ f.children, c.segment = segment ∧ c.isEmpty = false ∧ .folder segment ∈ f.info.items := by
  obtain ⟨info, children⟩ := f
  have hn : (children.map Folder.segment).Nodup := hf.nodup
  simp only [mem_mentions_mk hn]
  constructor
  · rintro ⟨m, ⟨item, -, hne, rfl⟩ | ⟨c, hc, hlisted, he, rfl | hin⟩, hway, hitem⟩
    · exact absurd hitem (hne segment)
    · obtain rfl := Item.folder.inj hitem
      exact ⟨c, hc, rfl, he, hlisted⟩
    · obtain ⟨u, -, hu, -⟩ := mem_mentions (hf.child hc) hin
      rw [hu] at hway
      simp at hway
  · rintro ⟨c, hc, rfl, he, hlisted⟩
    exact ⟨folderMention way c, Or.inr ⟨c, hc, hlisted, he, Or.inl rfl⟩, rfl, rfl⟩

/-- What is mentioned further down is what a folder inside mentions that is itself mentioned. -/
theorem mentions_inside {f : Folder} (hf : f.Tidy) (way v : List String) (name segment : String) :
    (∃ m ∈ mentions way f, m.way = way ++ name :: v ∧ m.item = .folder segment) ↔
      ∃ c ∈ f.children, c.segment = name ∧ c.isEmpty = false ∧ .folder name ∈ f.info.items ∧
        ∃ m ∈ mentions (way ++ [name]) c, m.way = way ++ [name] ++ v ∧ m.item = .folder segment := by
  obtain ⟨info, children⟩ := f
  have hn : (children.map Folder.segment).Nodup := hf.nodup
  simp only [mem_mentions_mk hn]
  constructor
  · rintro ⟨m, ⟨item, -, hne, rfl⟩ | ⟨c, hc, hlisted, he, rfl | hin⟩, hway, hitem⟩
    · exact absurd hitem (hne segment)
    · simp [folderMention] at hway
    · obtain ⟨u, -, hu, -⟩ := mem_mentions (hf.child hc) hin
      rw [hu, List.append_assoc, List.append_cancel_left_eq] at hway
      obtain ⟨rfl, rfl⟩ := List.cons.inj hway
      exact ⟨c, hc, rfl, he, hlisted, m, hin, hu, hitem⟩
  · rintro ⟨c, hc, rfl, he, hlisted, m, hm, hway, hitem⟩
    exact ⟨m, Or.inr ⟨c, hc, hlisted, he, Or.inr hm⟩, by simp [hway], hitem⟩

/-- A folder is mentioned when it is not empty and nothing on its way is hidden. -/
theorem mentions_folder {disk : Disk} {metaName : String} {f : Folder} (hf : f.Tidy)
    (hl : Every (Arrange.ListsFolders disk metaName) f) (way v : List String) (segment : String) :
    (∃ m ∈ mentions way f, m.way = way ++ v ∧ m.item = .folder segment) ↔
      (∃ c, f.find? (v ++ [segment]) = some c ∧ c.isEmpty = false) ∧
        (Arrange.rules disk metaName f).hide (v ++ [segment]) = false := by
  induction v generalizing f way with
  | nil =>
    rw [List.append_nil, mentions_here hf, List.nil_append, Rules.hide, Rules.hide, Bool.or_false]
    constructor
    · rintro ⟨c, hc, rfl, he, hlisted⟩
      exact ⟨⟨c, (Folder.find?_inside hf hc []).trans rfl, he⟩, (listed_iff hl.here hc he).mp hlisted⟩
    · rintro ⟨⟨b, hb, he⟩, hhide⟩
      obtain ⟨c, hc, rfl, hfind⟩ := Folder.exists_of_find? hb
      cases hfind
      exact ⟨b, hc, rfl, he, (listed_iff hl.here hc he).mpr hhide⟩
  | cons name v ih =>
    rw [mentions_inside hf, List.cons_append, Rules.hide, Bool.or_eq_false_iff]
    constructor
    · rintro ⟨c, hc, rfl, he, hlisted, hm⟩
      obtain ⟨⟨b, hb, hbe⟩, hhide⟩ := (ih (hf.child hc) (hl.child hc) _).mp hm
      refine ⟨⟨b, (Folder.find?_inside hf hc _).trans hb, hbe⟩, (listed_iff hl.here hc he).mp hlisted, ?_⟩
      rw [Arrange.rules_inside hf hc]
      exact hhide
    · rintro ⟨⟨b, hb, hbe⟩, hhere, hhide⟩
      obtain ⟨c, hc, rfl, hfind⟩ := Folder.exists_of_find? hb
      have he : c.isEmpty = false := by
        rw [Bool.eq_false_iff]
        intro hce
        rw [Folder.isEmpty_of_find? hfind hce] at hbe
        cases hbe
      rw [Arrange.rules_inside hf hc] at hhide
      exact ⟨c, hc, rfl, he, (listed_iff hl.here hc he).mpr hhere,
        (ih (hf.child hc) (hl.child hc) _).mpr ⟨⟨b, hfind, hbe⟩, hhide⟩⟩

/-! ## Links -/

/-- The link of a mention. A folder at the top is a heading, and a separator leads nowhere. -/
def Mention.link? (p : Places) (m : Mention) : Option String :=
  match m.item with
  | .folder segment => if m.way = [] then none else some (p.folderLink (m.way ++ [segment]))
  | .chapter id => (p.chapters.find? (·.id == id)).map p.chapterLink
  | .page page => some (p.pageLink page)
  | .separator _ => none

/-- A mention with a link is one line. -/
theorem Mention.entries_link {p : Places} {m : Mention} {link : String} (h : m.link? p = some link) :
    ∃ label, m.entries p = [linkLine m.way.length label link] := by
  unfold link? at h
  cases hi : m.item with
  | folder segment =>
    simp only [hi, Option.ite_none_left_eq_some, Option.some.injEq] at h
    obtain ⟨hway, rfl⟩ := h
    refine ⟨m.label, ?_⟩
    simp only [entries, hi, List.length_eq_zero_iff, if_neg hway]
  | chapter id =>
    simp only [hi] at h
    obtain ⟨c, hc, rfl⟩ := Option.map_eq_some_iff.mp h
    exact ⟨c.title, entries_chapter hi hc⟩
  | page page =>
    simp only [hi, Option.some.injEq] at h
    subst h
    refine ⟨page.title, ?_⟩
    simp only [entries, hi, ofItem]
  | separator title =>
    simp only [hi] at h
    cases h

end Outline

end Sourcebook
