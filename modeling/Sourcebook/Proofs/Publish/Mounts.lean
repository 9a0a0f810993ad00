-- Which directory a link to a folder leads to when folders are mounted. Among the mounted folders
-- that it stands in, the one whose first mount came last decides, and the last mount of that folder
-- gives the directory. So a folder follows the deepest mount only if that one was begun after those
-- above it, and a mount of the root decides for no folder inside.
import Mathlib
import Sourcebook.Proofs.Publish.Following

namespace Sourcebook

namespace Tree

variable {source : Path} {metaName : String} {additions : List Addition} {disk : Disk}
  {ways : List (List String)} {u v way : List String} {dir : Path}

/-! ## The mounts of a tree -/

/-- The mounts among additions, in their order. -/
def mountings (additions : List Addition) : List (List String × Path) :=
  additions.filterMap Addition.mounted?

/-- The directory of the last mount of a folder. -/
def mountedOn? (ms : List (List String × Path)) (way : List String) : Option Path :=
  ms.reverse.lookup way

theorem mountings_snoc (a : Addition) :
    mountings (additions ++ [a]) = mountings additions ++ a.mounted?.toList := by
  unfold mountings
  rw [List.filterMap_append]
  cases a <;> rfl

theorem mountedOn?_snoc (ms : List (List String × Path)) (m : List String × Path)
    (way : List String) : mountedOn? (ms ++ [m]) way =
      if way = m.1 then some m.2 else mountedOn? ms way := by
  unfold mountedOn?
  rw [List.reverse_append, List.reverse_singleton, List.singleton_append, List.lookup_cons]
  by_cases h : way = m.1
  · simp [h]
  · have hne : (way == m.1) = false := by simpa using h
    rw [hne, if_neg h]

/-- Every mounted folder has a last mount. -/
theorem exists_mountedOn? {ms : List (List String × Path)} (h : v ∈ ms.map (·.1)) :
    ∃ dir, mountedOn? ms v = some dir := by
  induction ms using List.reverseRecOn with
  | nil => cases h
  | append_singleton ms m ih =>
    rw [mountedOn?_snoc]
    by_cases hv : v = m.1
    · exact ⟨m.2, if_pos hv⟩
    · rw [if_neg hv]
      refine ih ((List.mem_append.mp (List.map_append ▸ h)).resolve_right fun hm => hv ?_)
      simpa using hm

/-- A mount takes the place that the folder has among the mounts, or the last one. -/
theorem add_mount (t : Tree) (path : String) (dir : Path) :
    (t.add (.mount path dir)).mounts =
      if segments path ∈ t.mounts.map (·.1) then
        t.mounts.map fun m => if m.1 = segments path then (segments path, dir) else m
      else t.mounts ++ [(segments path, dir)] := by
  have hmem : t.mounts.any (·.1 == segments path) = true ↔ segments path ∈ t.mounts.map (·.1) := by
    simp only [List.any_eq_true, beq_iff_eq, List.mem_map]
  simp only [add, mount, hmem]

theorem add_mounts (t : Tree) {a : Addition} (h : a.mounted? = none) :
    (t.add a).mounts = t.mounts := by
  cases a with
  | chapter c path => rfl
  | page p path => rfl
  | mount path dir => cases h

/-- The mounted folders stand in the order of their first mounts. -/
theorem made_mounts : (made source metaName additions).mounts.map (·.1) =
    ((mountings additions).map (·.1)).eraseDups := by
  induction additions using List.reverseRecOn with
  | nil => rfl
  | append_singleton as a ih =>
    rw [made_snoc, mountings_snoc, List.map_append, List.eraseDups_append, ← ih]
    cases hm : a.mounted? with
    | none => simp [add_mounts _ hm]
    | some m =>
      cases a with
      | chapter c path => cases hm
      | page p path => cases hm
      | mount path dir =>
        cases hm
        have hmem : segments path ∈ (mountings as).map (·.1) ↔
            segments path ∈ (made source metaName as).mounts.map (·.1) := by
          rw [ih, List.mem_eraseDups]
        rw [add_mount]
        by_cases hin : segments path ∈ (made source metaName as).mounts.map (·.1)
        · have hsame : ∀ m : List String × Path,
              (if m.1 = segments path then (segments path, dir) else m).1 = m.1 := by
            intro m
            split
            · next he => exact he.symm
            · rfl
          rw [if_pos hin, List.map_map]
          simp [hsame, List.removeAll, hmem.mpr hin]
        · have hnew := mt hmem.mp hin
          rw [if_neg hin, List.map_append]
          simp [List.removeAll, hnew, List.eraseDups_cons]

/-- A mount sets the directory of its folder and leaves those of the others. -/
theorem mem_mounts_add_mount (t : Tree) (path : String) (d : Path) :
    (v, dir) ∈ (t.add (.mount path d)).mounts ↔
      if v = segments path then dir = d else (v, dir) ∈ t.mounts := by
  rw [add_mount]
  split
  · next hin =>
    rw [List.mem_map]
    by_cases hv : v = segments path
    · rw [if_pos hv]
      constructor
      · rintro ⟨m, -, he⟩
        split at he
        · exact (Prod.mk.inj he).2.symm
        · next hne => exact absurd ((congrArg Prod.fst he).trans hv) hne
      · rintro rfl
        obtain ⟨m, hm, he⟩ := List.mem_map.mp hin
        exact ⟨m, hm, by rw [if_pos he, hv]⟩
    · rw [if_neg hv]
      constructor
      · rintro ⟨m, hm, he⟩
        split at he
        · exact absurd (congrArg Prod.fst he).symm hv
        · exact he ▸ hm
      · exact fun h => ⟨_, h, if_neg hv⟩
  · next hout =>
    rw [List.mem_append, List.mem_singleton, Prod.mk.injEq]
    by_cases hv : v = segments path
    · have hnot : (v, dir) ∉ t.mounts := fun h => hout (hv ▸ List.mem_map_of_mem h)
      simp [hv, hv ▸ hnot]
    · simp [hv]

/-- A mounted folder has the directory of its last mount. -/
theorem mem_made_mounts : (v, dir) ∈ (made source metaName additions).mounts ↔
    mountedOn? (mountings additions) v = some dir := by
  induction additions using List.reverseRecOn with
  | nil => simp [made, empty, mountings, mountedOn?]
  | append_singleton as a ih =>
    rw [made_snoc, mountings_snoc]
    cases a with
    | chapter c path =>
      rw [add_mounts (a := .chapter c path) _ rfl, ih]
      simp [Addition.mounted?]
    | page p path =>
      rw [add_mounts (a := .page p path) _ rfl, ih]
      simp [Addition.mounted?]
    | mount path d =>
      rw [mem_mounts_add_mount, ih]
      simp only [Addition.mounted?, Option.toList_some, mountedOn?_snoc]
      split
      · rw [Option.some.injEq, eq_comm]
      · rfl

/-! ## The mount that decides -/

/-- Of the mounted folders that a folder stands in, the root apart, this one was mounted for the
first time after all others. -/
structure Decides (ways : List (List String)) (v way : List String) : Prop where
  mounted : v ∈ ways
  inside : v ≠ []
  above : v <+: way
  newest : ∀ u ∈ ways, u ≠ [] → u <+: way → ways.idxOf u ≤ ways.idxOf v

/-- The longest of the mounted ways that a way goes on from. -/
structure Deepest (ways : List (List String)) (v way : List String) : Prop where
  mounted : v ∈ ways
  above : v <+: way
  longest : ∀ u ∈ ways, u <+: way → u <+: v

/-- Without repetitions, ways stand in the order in which they came first. -/
theorem eraseDups_rising (ways : List (List String)) :
    ways.eraseDups.Pairwise fun u v => ways.idxOf u < ways.idxOf v := by
  induction ways using List.reverseRecOn with
  | nil => exact List.Pairwise.nil
  | append_singleton ways v ih =>
    have hold : ways.eraseDups.Pairwise fun u w => (ways ++ [v]).idxOf u < (ways ++ [v]).idxOf w := by
      refine ih.imp_of_mem fun hu hw hlt => ?_
      rw [List.mem_eraseDups] at hu hw
      rwa [List.idxOf_append_of_mem hu, List.idxOf_append_of_mem hw]
    rw [List.eraseDups_append, List.removeAll]
    by_cases hv : v ∈ ways
    · simpa [hv] using hold
    · rw [List.filter_cons_of_pos (by simpa using hv), List.filter_nil, List.eraseDups_cons,
        List.filter_nil, List.eraseDups_nil, List.pairwise_append]
      refine ⟨hold, List.pairwise_singleton _ _, fun u hu w hw => ?_⟩
      rw [List.mem_eraseDups] at hu
      rw [List.mem_singleton.mp hw, List.idxOf_append_of_mem hu, List.idxOf_append_of_notMem hv]
      exact (List.idxOf_lt_length_of_mem hu).trans_le (Nat.le_add_right _ _)

theorem underMount_iff (hway : way ≠ []) : Outline.underMount v way = true ↔ v ≠ [] ∧ v <+: way := by
  unfold Outline.underMount
  simp only [Bool.or_eq_true, beq_iff_eq, Bool.and_eq_true, Bool.not_eq_true',
    List.isEmpty_eq_false_iff, List.isPrefixOf_iff_prefix, or_iff_right_iff_imp]
  rintro rfl
  exact ⟨hway, List.prefix_refl _⟩

/-- The last of the mounts that a folder stands under decides. -/
theorem decides_of_getLast? {m : List String × Path} (hway : way ≠ [])
    (h : ((made source metaName additions).mounts.filter
      fun m => Outline.underMount m.1 way).getLast? = some m) :
    Decides ((mountings additions).map (·.1)) m.1 way ∧
      mountedOn? (mountings additions) m.1 = some m.2 := by
  obtain ⟨before, hbefore⟩ := List.getLast?_eq_some_iff.mp h
  have hm := List.mem_filter.mp (List.mem_of_getLast? h)
  obtain ⟨hne, habove⟩ := (underMount_iff hway).mp hm.2
  have hrising := eraseDups_rising ((mountings additions).map (·.1))
  rw [← @made_mounts source metaName additions, List.pairwise_map] at hrising
  have hlast := hrising.filter fun m => Outline.underMount m.1 way
  rw [hbefore, List.pairwise_append] at hlast
  have hmem : ∀ u, u ∈ (mountings additions).map (·.1) ↔
      ∃ e ∈ (made source metaName additions).mounts, e.1 = u := by
    intro u
    rw [← List.mem_eraseDups, ← @made_mounts source metaName additions, List.mem_map]
  refine ⟨⟨(hmem _).mpr ⟨m, hm.1, rfl⟩, hne, habove, fun u hu hu' hin => ?_⟩,
    mem_made_mounts.mp hm.1⟩
  obtain ⟨e, he, rfl⟩ := (hmem u).mp hu
  have hfilter : e ∈ before ++ [m] :=
    hbefore ▸ List.mem_filter.mpr ⟨he, (underMount_iff hway).mpr ⟨hu', hin⟩⟩
  rcases List.mem_append.mp hfilter with hin | hin
  · exact (hlast.2.2 e hin m (List.mem_singleton.mpr rfl)).le
  · rw [List.mem_singleton.mp hin]

theorem Decides.unique (hu : Decides ways u way) (hv : Decides ways v way) : u = v :=
  (List.idxOf_inj hu.mounted).mp
    ((hv.newest u hu.mounted hu.inside hu.above).antisymm (hu.newest v hv.mounted hv.inside hv.above))

/-- The deepest mounted folder decides when it was begun after those above it, the root apart. -/
theorem Deepest.decides_iff (h : Deepest ways v way) : Decides ways v way ↔
    v ≠ [] ∧ ∀ u ∈ ways, u ≠ [] → u <+: v → ways.idxOf u ≤ ways.idxOf v := by
  constructor
  · exact fun hd => ⟨hd.inside, fun u hu hne hv => hd.newest u hu hne (hv.trans h.above)⟩
  · exact fun ⟨hne, hnewest⟩ => ⟨h.mounted, hne, h.above,
      fun u hu hu' hway => hnewest u hu hu' (h.longest u hu hway)⟩

end Tree

namespace Outline

/-- A folder stands for the directory of the last mount that it stands under. -/
theorem Places.directory_eq (p : Places) (way : List String) : p.directory way =
    ((p.mounts.filter fun m => underMount m.1 way).getLast?.map
      fun m => m.2.join ⟨.none, way.drop m.1.length⟩).getD (p.outDir.join ⟨.none, way⟩) := by
  unfold directory
  generalize p.mounts = ms
  induction ms using List.reverseRecOn with
  | nil => rfl
  | append_singleton ms m ih =>
    rw [List.foldl_append, ih, List.filter_append]
    by_cases hm : underMount m.1 way = true
    · simp [hm]
    · simp [hm]

end Outline

namespace Publish

open Sourcebook.Tree (made mountings mountedOn? Decides Deepest)

variable {s : Settings} {t : Tree} {source : Path} {metaName : String}
  {additions : List Tree.Addition} {disk : Disk} {v way : List String} {dir : Path}

/-- A folder is linked by one line, and the link leads from the table of contents to a directory. -/
def LinksTo (s : Settings) (t : Tree) (m : Outline.Mention) (target : Path) : Prop :=
  let link := Path.link target s.summaryFile.parent ++ "/"
  m.entries (.of s t) = [Outline.linkLine m.way.length m.label link] ∧
    (target.Spelled → followed s link = target.normal [])

/-- Every folder that is mentioned further down is linked to its directory. -/
theorem linksTo_directory {m : Outline.Mention} {segment : String} (hi : m.item = .folder segment)
    (hne : m.way ≠ []) :
    LinksTo s t m ((Outline.Places.of s t).directory (m.way ++ [segment])) := by
  refine ⟨?_, fun h => Path.folderLink_leads h _⟩
  simp only [Outline.Mention.entries, hi, List.length_eq_zero_iff, if_neg hne]
  rfl

/-- The directory of a folder in a tree that was made and arranged. -/
theorem directory_arranged :
    (Outline.Places.of s ((made source metaName additions).arrange disk).1).directory way =
      (((made source metaName additions).mounts.filter
        fun m => Outline.underMount m.1 way).getLast?.map
          fun m => m.2.join ⟨.none, way.drop m.1.length⟩).getD (s.outDir.join ⟨.none, way⟩) := by
  rw [Outline.Places.directory_eq, Tree.arrange_made]
  rfl

theorem directory_of_decides (hd : Decides ((mountings additions).map (·.1)) v way)
    (hdir : mountedOn? (mountings additions) v = some dir) :
    (Outline.Places.of s ((made source metaName additions).arrange disk).1).directory way =
      dir.join ⟨.none, way.drop v.length⟩ := by
  have hway : way ≠ [] := fun he => hd.inside (List.prefix_nil.mp (he ▸ hd.above))
  rw [directory_arranged]
  cases hlast : ((made source metaName additions).mounts.filter
      fun m => Outline.underMount m.1 way).getLast? with
  | none =>
    rw [List.getLast?_eq_none_iff, List.filter_eq_nil_iff] at hlast
    exact absurd ((Tree.underMount_iff hway).mpr ⟨hd.inside, hd.above⟩)
      (hlast (v, dir) (Tree.mem_made_mounts.mpr hdir))
  | some m =>
    obtain ⟨hm, hmdir⟩ := Tree.decides_of_getLast? hway hlast
    rw [hm.unique hd, hdir, Option.some.injEq] at hmdir
    rw [Option.map_some, Option.getD_some, hm.unique hd, hmdir]

theorem directory_of_unmounted (hway : way ≠ [])
    (h : ∀ v ∈ (mountings additions).map (·.1), v <+: way → v = []) :
    (Outline.Places.of s ((made source metaName additions).arrange disk).1).directory way =
      s.outDir.join ⟨.none, way⟩ := by
  rw [directory_arranged]
  cases hlast : ((made source metaName additions).mounts.filter
      fun m => Outline.underMount m.1 way).getLast? with
  | none => rfl
  | some m =>
    obtain ⟨hm, -⟩ := Tree.decides_of_getLast? hway hlast
    exact absurd (h m.1 hm.mounted hm.above) hm.inside

/-- A folder that stands in a mounted one, other than the root, is decided for. -/
theorem exists_decides (hv : v ∈ (mountings additions).map (·.1)) (hne : v ≠ []) (habove : v <+: way) :
    ∃ u dir, Decides ((mountings additions).map (·.1)) u way ∧
      mountedOn? (mountings additions) u = some dir := by
  have hway : way ≠ [] := fun he => hne (List.prefix_nil.mp (he ▸ habove))
  obtain ⟨dir, hdir⟩ := Tree.exists_mountedOn? hv
  have hmem : (v, dir) ∈ (made ⟨.none, []⟩ "" additions).mounts.filter
      fun m => Outline.underMount m.1 way :=
    List.mem_filter.mpr ⟨Tree.mem_made_mounts.mpr hdir, (Tree.underMount_iff hway).mpr ⟨hne, habove⟩⟩
  obtain ⟨m, hm⟩ := Option.ne_none_iff_exists'.mp
    (mt List.getLast?_eq_none_iff.mp (List.ne_nil_of_mem hmem))
  exact ⟨m.1, m.2, Tree.decides_of_getLast? hway hm⟩

/-- The link to a folder leads to the directory of the mounted folder that was mounted for the first
time after all others above, the root apart, and on from there by the names that are left; without
one it leads to a directory of the pages. That is the deepest mounted folder when it was begun after
those above it. -/
theorem folder_links_follow_the_mount_begun_last (source : Path) (metaName : String)
    (additions : List Tree.Addition) (disk : Disk) (s : Settings) :
    let t := ((made source metaName additions).arrange disk).1
    let ms := mountings additions
    let ways := ms.map (·.1)
    Outline.lines s t = Outline.layout false
      ((Outline.mentions [] t.root).flatMap (Outline.Mention.entries (.of s t))) ∧
    ∀ m ∈ Outline.mentions [] t.root, ∀ segment, m.item = .folder segment → m.way ≠ [] →
      let way := m.way ++ [segment]
      ((∀ v ∈ ways, v <+: way → v = []) → LinksTo s t m (s.outDir.join ⟨.none, way⟩)) ∧
      (∀ v dir, Decides ways v way → mountedOn? ms v = some dir →
        LinksTo s t m (dir.join ⟨.none, way.drop v.length⟩)) ∧
      ((∃ v ∈ ways, v ≠ [] ∧ v <+: way) →
        ∃ v dir, Decides ways v way ∧ mountedOn? ms v = some dir) ∧
      ∀ v, Deepest ways v way → (Decides ways v way ↔
        v ≠ [] ∧ ∀ u ∈ ways, u ≠ [] → u <+: v → ways.idxOf u ≤ ways.idxOf v) := by
  intro t ms ways
  refine ⟨congrArg (Outline.layout false) (Outline.ofFolder_eq _ [] t.root),
    fun m _ segment hi hne => ?_⟩
  intro way
  have hlink := linksTo_directory (s := s) (t := t) hi hne
  refine ⟨fun hnone => ?_, fun v dir hd hdir => ?_, ?_, fun v hv => hv.decides_iff⟩
  · rwa [directory_of_unmounted (List.append_ne_nil_of_right_ne_nil _ (by simp)) hnone] at hlink
  · rwa [directory_of_decides hd hdir] at hlink
  · rintro ⟨v, hv, hv', habove⟩
    exact exists_decides hv hv' habove

/-- A chapter three folders down. -/
def deepChapter : Tree.Addition := .chapter ⟨"d", "D", "", "", 100, [], none⟩ "a/b/c"

theorem a_folder_follows_the_deeper_mount :
    let additions := [.mount "a" ⟨.single, ["p", "x"]⟩, .mount "a/b" ⟨.single, ["p", "y"]⟩, deepChapter]
    let t := ((made ⟨.single, ["p"]⟩ "_meta.json" additions).arrange ⟨[]⟩).1
    Decides ((mountings additions).map (·.1)) ["a", "b"] ["a", "b", "c"] ∧
    ∃ m ∈ Outline.mentions [] t.root, (m.way = ["a", "b"] ∧ m.item = .folder "c") ∧
      LinksTo (.ofRoot ["p"]) t m ⟨.single, ["p", "y", "c"]⟩ := by
  intro additions t
  have hd : Decides ((mountings additions).map (·.1)) ["a", "b"] ["a", "b", "c"] :=
    ⟨by decide +kernel, by decide, by decide, by decide +kernel⟩
  obtain ⟨m, hm, hway, hi⟩ : ∃ m ∈ Outline.mentions [] t.root,
      m.way = ["a", "b"] ∧ m.item = .folder "c" := by decide +kernel
  refine ⟨hd, m, hm, ⟨hway, hi⟩, ?_⟩
  obtain ⟨-, hall⟩ := folder_links_follow_the_mount_begun_last ⟨.single, ["p"]⟩ "_meta.json" additions
    ⟨[]⟩ (.ofRoot ["p"])
  obtain ⟨-, hlink, -⟩ := hall m hm "c" hi (by simp [hway])
  rw [hway] at hlink
  exact hlink ["a", "b"] ⟨.single, ["p", "y"]⟩ hd (by decide +kernel)

/-- A folder above may be mounted later. Then the folders of a deeper mount have their override files
in its directory, and their links lead elsewhere. -/
theorem a_link_can_pass_by_the_deepest_mount :
    let additions := [.mount "a/b" ⟨.single, ["p", "x"]⟩, .mount "a" ⟨.single, ["p", "y"]⟩, deepChapter]
    let t := ((made ⟨.single, ["p"]⟩ "_meta.json" additions).arrange ⟨[]⟩).1
    Deepest ((mountings additions).map (·.1)) ["a", "b"] ["a", "b", "c"] ∧
    mountedOn? (mountings additions) ["a", "b"] = some ⟨.single, ["p", "x"]⟩ ∧
    (t.root.find? ["a", "b", "c"]).map (·.info.source) = some ⟨.single, ["p", "x", "c"]⟩ ∧
    Outline.lines (.ofRoot ["p"]) t = ["", "## a", "", "* [b](../y/b/)", "  * [c](../y/b/c/)",
      "    * [D](chapters/a/b/c/d.md)"] :=
  ⟨⟨by decide +kernel, by decide, by decide +kernel⟩, by decide +kernel, by decide +kernel,
    by decide +kernel⟩

end Publish

end Sourcebook
