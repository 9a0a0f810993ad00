-- The way that directories share. It is the longest that all of them start with, so it does not
-- depend on their order or on how often they come, and it ends where a name ends.
import Mathlib
import Sourcebook.Contents.Folder
import Sourcebook.Proofs.Disk.Links

namespace Sourcebook

namespace Tree

/-! ## Ways as texts -/

theorem isPart_segments {path n : String} (h : n ∈ segments path) : IsPart n :=
  Path.isPart_of_mem_partsOf h

theorem segments_pathText {way : List String} (h : ∀ n ∈ way, IsPart n) :
    segments (pathText way) = way :=
  Path.partsOf_of_parts h

/-- A way that goes on behind another one is written behind it, with a slash between them. -/
theorem pathText_append {way more : List String} (hway : way ≠ []) (hmore : more ≠ []) :
    pathText (way ++ more) = pathText way ++ "/" ++ pathText more := by
  apply String.toList_injective
  unfold pathText
  rw [String.toList_append, String.toList_append, Path.intercalate_toList, Path.intercalate_toList,
    Path.intercalate_toList, List.map_append,
    Text.joinWith_append (by simpa using hway) (by simpa using hmore)]
  simp

/-! ## What ways share -/

variable {ways : List (List String)}

theorem prefix_sharedWay {v a b : List String} : v <+: sharedWay a b ↔ v <+: a ∧ v <+: b := by
  have hnil : ∀ u w : List String, u <+: [] → u <+: w := fun u w h =>
    List.prefix_nil.mp h ▸ List.nil_prefix
  induction a generalizing v b with
  | nil =>
    rw [show sharedWay [] b = [] from rfl]
    exact (and_iff_left_of_imp (hnil v b)).symm
  | cons s a ih =>
    cases b with
    | nil =>
      rw [show sharedWay (s :: a) [] = [] from rfl]
      exact (and_iff_right_of_imp (hnil v (s :: a))).symm
    | cons t b =>
      cases v with
      | nil => simp
      | cons x v =>
        rw [sharedWay, List.cons_prefix_cons, List.cons_prefix_cons]
        by_cases hst : s = t
        · subst hst
          have htail : v <+: sharedWay a b ↔ v <+: a ∧ v <+: b := ih
          rw [if_pos rfl, List.cons_prefix_cons, htail]
          exact and_and_left
        · rw [if_neg hst, List.prefix_nil]
          refine iff_of_false (List.cons_ne_nil x v) ?_
          rintro ⟨⟨rfl, -⟩, rfl, -⟩
          exact hst rfl

/-- A way is shared by all directories when it is a start of each. -/
theorem prefix_commonWay (hne : ways ≠ []) {v : List String} :
    v <+: commonWay ways ↔ ∀ w ∈ ways, v <+: w := by
  induction ways with
  | nil => exact absurd rfl hne
  | cons way rest ih =>
    cases rest with
    | nil => simp [commonWay]
    | cons next rest =>
      have hne : next :: rest ≠ [] := List.cons_ne_nil _ _
      rw [commonWay, prefix_sharedWay, ih hne]
      · exact List.forall_mem_cons.symm
      · exact hne

/-- A way is told by the ways that it starts with. -/
theorem eq_of_starts {a b : List String} (h : ∀ v, v <+: a ↔ v <+: b) : a = b := by
  have hone := (h a).mp List.prefix_rfl
  have hother := (h b).mpr List.prefix_rfl
  exact hone.eq_of_length (le_antisymm hone.length_le hother.length_le)

/-- Ways that differ in order and number alone share the same. -/
theorem commonWay_congr {ways' : List (List String)} (h : ∀ w, w ∈ ways' ↔ w ∈ ways) :
    commonWay ways' = commonWay ways := by
  by_cases hne : ways = []
  · subst hne
    rw [List.eq_nil_iff_forall_not_mem.mpr fun w hw => List.not_mem_nil ((h w).mp hw)]
  · obtain ⟨w, hw⟩ := List.exists_mem_of_ne_nil ways hne
    have hne' : ways' ≠ [] := List.ne_nil_of_mem ((h w).mpr hw)
    refine eq_of_starts fun v => ?_
    rw [prefix_commonWay hne, prefix_commonWay hne']
    simp only [h]

/-- One more way narrows what is shared to what it starts with as well. -/
theorem commonWay_snoc (hne : ways ≠ []) (way : List String) :
    commonWay (ways ++ [way]) = sharedWay (commonWay ways) way := by
  refine eq_of_starts fun v => ?_
  rw [prefix_commonWay (by simp), prefix_sharedWay, prefix_commonWay hne, List.forall_mem_append,
    List.forall_mem_singleton]

/-! ## What directories share -/

variable {directories : List String}

theorem commonWay_starts {directory : String} (h : directory ∈ directories) :
    commonWay (directories.map segments) <+: segments directory := by
  have hmem : segments directory ∈ directories.map segments := List.mem_map_of_mem h
  exact (prefix_commonWay (List.ne_nil_of_mem hmem)).mp List.prefix_rfl _ hmem

theorem isPart_commonWay (directories : List String) {n : String}
    (h : n ∈ commonWay (directories.map segments)) : IsPart n := by
  cases directories with
  | nil => cases h
  | cons directory rest => exact isPart_segments ((commonWay_starts List.mem_cons_self).subset h)

theorem segments_commonRoot (directories : List String) :
    segments (commonRoot directories) = commonWay (directories.map segments) :=
  segments_pathText fun _ hn => isPart_commonWay directories hn

/-- A way that a directory starts with is all of its text, or stands in front of a slash there. -/
theorem pathText_of_prefix {way whole : List String} (h : way <+: whole) :
    way = [] ∨ pathText whole = pathText way ∨
      ∃ more, pathText whole = pathText way ++ "/" ++ pathText more := by
  obtain ⟨more, rfl⟩ := h
  by_cases hway : way = []
  · exact Or.inl hway
  · by_cases hmore : more = []
    · exact Or.inr (Or.inl (by rw [hmore, List.append_nil]))
    · exact Or.inr (Or.inr ⟨more, pathText_append hway hmore⟩)

/-- The common root of directories is the longest way that all of them start with. It is written
without empty names and dots, and in the text of a directory it is followed by a slash or by nothing.
Directories that come to the same ways have the same root, in any order and however often each comes,
and one more directory narrows the root to what it shares with that directory. -/
theorem the_common_root_is_the_longest_shared_way (hne : directories ≠ []) :
    (∀ d ∈ directories, segments (commonRoot directories) <+: segments d) ∧
    (∀ way, (∀ d ∈ directories, way <+: segments d) → way <+: segments (commonRoot directories)) ∧
    commonRoot directories = pathText (segments (commonRoot directories)) ∧
    (∀ d ∈ directories, commonRoot directories = "" ∨ pathText (segments d) = commonRoot directories ∨
      ∃ more, pathText (segments d) = commonRoot directories ++ "/" ++ pathText more) ∧
    (∀ others : List String, (∀ way, way ∈ others.map segments ↔ way ∈ directories.map segments) →
      commonRoot others = commonRoot directories) ∧
    ∀ d, segments (commonRoot (directories ++ [d])) =
      sharedWay (segments (commonRoot directories)) (segments d) := by
  have hroot : segments (commonRoot directories) = commonWay (directories.map segments) :=
    segments_commonRoot directories
  have htext : commonRoot directories = pathText (segments (commonRoot directories)) := by
    rw [hroot]
    rfl
  have hways : directories.map segments ≠ [] := by simpa using hne
  have hstarts : ∀ d ∈ directories, segments (commonRoot directories) <+: segments d := fun d hd =>
    hroot ▸ commonWay_starts hd
  refine ⟨hstarts, fun way hway => ?_, htext, fun d hd => ?_, fun others hothers => ?_, fun d => ?_⟩
  · rw [hroot, prefix_commonWay hways]
    simpa using hway
  · rcases pathText_of_prefix (hstarts d hd) with hnil | hall | hmore
    · exact Or.inl (htext.trans (by rw [hnil]; rfl))
    · exact Or.inr (Or.inl (hall.trans htext.symm))
    · rw [← htext] at hmore
      exact Or.inr (Or.inr hmore)
  · exact congrArg pathText (commonWay_congr hothers)
  · rw [segments_commonRoot, List.map_append, List.map_singleton, commonWay_snoc hways, hroot]

/-- Two names that start alike have no part in common: of them only the directory above is shared. -/
theorem names_that_start_alike_share_no_name :
    let directories := ["test/ab", "./test//a/b", "test/ab/"]
    directories ≠ [] ∧ commonRoot directories = "test" ∧
      commonRoot ["test//a/b", "test/ab"] = "test" ∧
      ∀ way, (∀ d ∈ directories, way <+: segments d) → way <+: ["test"] := by
  intro directories
  have hne : directories ≠ [] := by simp [directories]
  obtain ⟨-, hlongest, -, -, hothers, -⟩ := the_common_root_is_the_longest_shared_way hne
  have hroot : commonRoot directories = "test" := by decide +kernel
  have hsegments : segments (commonRoot directories) = ["test"] := by decide +kernel
  refine ⟨hne, hroot, ?_, fun way hway => hsegments ▸ hlongest way hway⟩
  rw [hothers, hroot]
  have hways : directories.map segments = [["test", "ab"], ["test", "a", "b"], ["test", "ab"]] := by
    decide +kernel
  have hpair : ["test//a/b", "test/ab"].map segments = [["test", "a", "b"], ["test", "ab"]] := by
    decide +kernel
  intro way
  rw [hways, hpair]
  simp only [List.mem_cons, List.not_mem_nil, or_false]
  tauto

end Tree

end Sourcebook
