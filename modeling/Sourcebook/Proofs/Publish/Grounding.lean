-- The tree of chapters stands on the directory that all chapters share: a folder stands for the
-- directory at its path below it, and a chapter is put into the folder of its own directory. So the
-- override file of a chapter's folder is looked for beside the sources of the chapter.
import Mathlib
import Sourcebook.Proofs.Contents.Pointers
import Sourcebook.Proofs.Publish.Shuffling

namespace Sourcebook

namespace Tree

/-! ## The directory that all chapters share -/

theorem join_pathText {way : List String} (h : ∀ n ∈ way, IsPart n) (p : Path) :
    p.join (Path.ofString (pathText way)) = ⟨p.root, p.parts ++ way⟩ := by
  rw [pathText, Path.ofString_of_parts h]
  rfl

variable {chapters : List Chapter}

/-- A chapter's directory is the shared one, and from there on its plot. -/
theorem commonRoot_plot {c : Chapter} (hc : c ∈ chapters) :
    segments (commonRoot (chapters.map (·.sourceDir))) ++ plot chapters c =
      segments c.sourceDir := by
  have hstart := commonWay_starts (List.mem_map_of_mem (f := (·.sourceDir)) hc)
  rw [← segments_commonRoot] at hstart
  exact List.prefix_iff_eq_append.mp hstart

/-! ## What stands in a folder -/

variable {source : Path} {metaName : String} {additions : List Addition}

theorem Addition.chapterAt?_iff {a : Addition} {v : List String} {c : Chapter} :
    a.chapterAt? v = some c ↔ a.chapter? = some c ∧ v = a.way := by
  cases a with
  | chapter d path => simp [chapterAt?, chapter?, way, and_comm, eq_comm]
  | page p path => simp [chapterAt?, chapter?]
  | mount path dir => simp [chapterAt?, chapter?]

theorem Addition.mem_effect {a : Addition} {i : FolderInfo} {id : String} :
    id ∈ (a.effect i).chapters ↔ id ∈ i.chapters ∨ ∃ c, a.chapter? = some c ∧ c.id = id := by
  refine ⟨fun h => ?_, ?_⟩
  · exact (mem_effect_chapters h).imp_right fun ⟨c, hc, he⟩ => ⟨c, hc, he.symm⟩
  · rintro (h | ⟨c, hc, rfl⟩)
    · cases a with
      | chapter d path =>
        simp only [effect]
        split
        · exact h
        · exact List.mem_append_left _ h
      | page p path => exact h
      | mount path dir => exact h
    · cases a with
      | chapter d path =>
        cases hc
        simp only [effect]
        split
        · next h => simpa using h
        · simp
      | page p path => cases hc
      | mount path dir => cases hc

theorem mem_chaptersAt_snoc {a : Addition} {v : List String} {c : Chapter} :
    c ∈ chaptersAt (additions ++ [a]) v ↔
      c ∈ chaptersAt additions v ∨ a.chapter? = some c ∧ v = a.way := by
  unfold chaptersAt
  rw [List.filterMap_append, List.mem_append, ← Addition.chapterAt?_iff]
  simp [List.mem_filterMap]

/-- A folder has the chapters that were put into it, also those that came more than once. -/
theorem mem_reach_chapters {v : List String} {id : String} :
    id ∈ ((made source metaName additions).root.reach v).info.chapters ↔
      ∃ c ∈ chaptersAt additions v, c.id = id := by
  induction additions using List.reverseRecOn with
  | nil =>
    have hnone : ((made source metaName []).root.reach v).info.chapters = [] :=
      reach_made_nil (n := (·.chapters)) (fun _ _ => rfl) v
    rw [hnone]
    simp [chaptersAt]
  | append_singleton as a ih =>
    rw [reach_made_snoc (n := (·.chapters)) (fun _ _ => rfl)]
    simp only [mem_chaptersAt_snoc, or_and_right, exists_or, ← ih]
    by_cases hv : v = a.way
    · rw [if_pos hv, Addition.mem_effect]
      simp only [hv, and_true]
    · rw [if_neg hv]
      simp only [hv, and_false, false_and, exists_false, or_false]

theorem mem_chaptersAt_sown {v : List String} {c : Chapter} :
    c ∈ chaptersAt (sown chapters) v ↔ c ∈ chapters ∧ plot chapters c = v := by
  rw [mem_chaptersAt]
  unfold sown
  constructor
  · rintro ⟨path, hmem, hv⟩
    obtain ⟨d, hd, he⟩ := List.mem_map.mp hmem
    cases he
    rw [segments_plot] at hv
    exact ⟨hd, hv⟩
  · rintro ⟨hc, hv⟩
    exact ⟨_, List.mem_map.mpr ⟨c, hc, rfl⟩, by rw [segments_plot, hv]⟩

/-! ## The tree of chapters -/

/-- What is recorded of a folder of the tree of chapters. -/
theorem sown_find? {v : List String} {a : Folder}
    (ha : (made source metaName (sown chapters)).root.find? v = some a) :
    (∀ n ∈ v, IsPart n) ∧ a.info.source = ⟨source.root, source.parts ++ v⟩ ∧
      ∀ id, id ∈ a.info.chapters ↔ ∃ c ∈ chapters, c.id = id ∧ plot chapters c = v := by
  refine ⟨fun n hn => ?_, ?_, fun id => ?_⟩
  · rcases (made_find?_isSome v).mp (by rw [ha]; rfl) with rfl | ⟨b, hb, hstart⟩
    · cases hn
    · obtain ⟨c, -, rfl⟩ := List.mem_map.mp hb
      exact isPart_segments (hstart.subset hn)
  · have hunmounted : ∀ b ∈ sown chapters, ∀ i, (b.effect i).source = i.source := by
      intro b hb i
      obtain ⟨c, -, rfl⟩ := List.mem_map.mp hb
      simp only [Addition.effect]
      split <;> rfl
    obtain ⟨hroot, hrooted⟩ := made_rooted hunmounted
    rw [hrooted v a ha, hroot]
  · rw [← Folder.reach_of_find? ha, mem_reach_chapters]
    simp only [mem_chaptersAt_sown, and_right_comm, and_assoc]

/-- The register of the tree of chapters: the directories that its folders stand for, and the
chapters in them. -/
structure Grounded (root : Path) (chapters : List Chapter) (g : Register) : Prop where
  source : ∀ path e, g path = some e → e.info.source =
    (root.join (Path.ofString (commonRoot (chapters.map (·.sourceDir))))).join (Path.ofString path)
  held : ∀ path e id, g path = some e → (id ∈ e.info.chapters ↔ ∃ c ∈ chapters, c.id = id ∧
    segments (commonRoot (chapters.map (·.sourceDir))) ++ segments path = segments c.sourceDir)
  placed : ∀ c ∈ chapters, ∃ path e, g path = some e ∧ c.id ∈ e.info.chapters ∧
    segments (commonRoot (chapters.map (·.sourceDir))) ++ segments path = segments c.sourceDir ∧
    e.info.source = root.join ⟨.none, segments c.sourceDir⟩

theorem grounded_sown (root : Path) (metaName : String) (chapters : List Chapter) :
    Grounded root chapters (ofChapters root metaName chapters).register := by
  have hcommon : root.join (Path.ofString (commonRoot (chapters.map (·.sourceDir)))) =
      ⟨root.root, root.parts ++ segments (commonRoot (chapters.map (·.sourceDir)))⟩ := by
    rw [segments_commonRoot]
    exact join_pathText (fun _ hn => isPart_commonWay _ hn) root
  rw [ofChapters_made, register_eq made_tidy]
  -- a chapter stands in a folder when its plot is the way there
  have hplot : ∀ {v : List String} {c : Chapter}, c ∈ chapters → (∀ n ∈ v, IsPart n) →
      (segments (commonRoot (chapters.map (·.sourceDir))) ++ segments (pathText v) =
        segments c.sourceDir ↔ plot chapters c = v) := by
    intro v c hc hv
    rw [segments_pathText hv, ← commonRoot_plot hc, List.append_right_inj]
    exact eq_comm
  refine ⟨fun path e he => ?_, fun path e id he => ?_, fun c hc => ?_⟩
  · obtain ⟨v, a, ha, -, rfl, rfl⟩ := Folder.register_eq_some made_tidy he
    obtain ⟨hparts, hsource, -⟩ := sown_find? ha
    rw [join_pathText hparts]
    exact hsource
  · obtain ⟨v, a, ha, -, rfl, rfl⟩ := Folder.register_eq_some made_tidy he
    obtain ⟨hparts, -, hchapters⟩ := sown_find? ha
    refine (hchapters id).trans (exists_congr fun c => and_congr_right fun hc => ?_)
    rw [hplot hc hparts]
  · obtain ⟨a, ha⟩ : ∃ a, (made (root.join (Path.ofString (commonRoot
        (chapters.map (·.sourceDir))))) metaName (sown chapters)).root.find? (plot chapters c) =
          some a := by
      refine Option.isSome_iff_exists.mp ((made_find?_isSome _).mpr (Or.inr ?_))
      exact ⟨_, List.mem_map.mpr ⟨c, hc, rfl⟩, by rw [Addition.way, segments_plot]⟩
    obtain ⟨hparts, hsource, hchapters⟩ := sown_find? ha
    refine ⟨pathText (plot chapters c), .of (plot chapters c) a, ?_, ?_, ?_, ?_⟩
    · exact Folder.register_of_find? made_tidy ha
    · exact (hchapters c.id).mpr ⟨c, hc, rfl, rfl⟩
    · exact (hplot hc hparts).mpr rfl
    · refine hsource.trans ?_
      rw [hcommon, ← commonRoot_plot hc, List.append_assoc]
      rfl

/-- A tree is the register that is made of the same additions in their order: the pointers are sound
and come to an end, every folder has one turn, a folder is empty when nothing is recorded below its
path, and folders list what they point to. That stays when the tree is arranged, however far the
work comes, and no pointer and no directory changes. In the tree of chapters a folder stands for the
directory at its path below the one that all chapters share, and each chapter is in the folder of
its own directory. -/
theorem folders_are_recorded_under_their_paths (source : Path) (metaName : String)
    (additions : List Addition) (disk : Disk) (root : Path) (chapters : List Chapter) :
    let t := made source metaName additions
    let done := (t.arrange disk).1
    t.register = .made source additions ∧ t.Regular ∧ done.Regular ∧
    (∀ path, (done.register path).map Record.bare = (t.register path).map Record.bare) ∧
    (ofChapters root metaName chapters = made (root.join (Path.ofString (commonRoot
      (chapters.map (·.sourceDir))))) metaName (sown chapters) ∧
      Grounded root chapters (ofChapters root metaName chapters).register) :=
  ⟨made_register additions, regular_of_tidy made_tidy made_listsInside,
    (regular_arrange made_tidy made_listsInside disk).2,
    register_arrange made_tidy made_listsInside disk,
    ofChapters_made root metaName chapters, grounded_sown root metaName chapters⟩

end Tree

end Sourcebook
