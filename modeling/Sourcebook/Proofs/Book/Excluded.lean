-- What is taken out. A pattern for any depth looks at every end of a path, from the first name on.
-- The patterns look at a path as it is spelled, so a way that turns back passes them by.
import Mathlib
import Sourcebook.Book.Discovery
import Sourcebook.Proofs.Book.Includable
import Sourcebook.Proofs.Text.Wildcards

namespace Sourcebook

variable {names : List String}

/-! ## Exclusion at any depth -/

theorem isExcluded_single (path pattern : String) : isExcluded path [pattern] = true ↔
    Text.wildcardMatch pattern.toList path.toList = true ∨
      Text.wildcardMatch pattern.toList ('/' :: path.toList) = true := by
  simp [isExcluded]

theorem isExcluded_anyDepth (hne : names ≠ []) (hslash : ∀ n ∈ names, '/' ∉ n.toList)
    (pattern : String) : isExcluded ("/".intercalate names) ["**/" ++ pattern] = true ↔
      ∃ rest, rest ≠ [] ∧ rest <:+ names ∧
        Text.wildcardMatch pattern.toList ("/".intercalate rest).toList = true := by
  have hpattern : ("**/" ++ pattern).toList = '*' :: '*' :: '/' :: pattern.toList := by
    rw [String.toList_append]
    rfl
  rw [isExcluded_single, hpattern, Text.wildcardMatch_anyDepth, Text.wildcardMatch_anyDepth]
  constructor
  · -- A slash inside of the path is one of the rooted path too.
    intro h
    obtain ⟨t, ht, hmatch⟩ : ∃ t, '/' :: t <:+ '/' :: ("/".intercalate names).toList ∧
        Text.wildcardMatch pattern.toList t = true := by
      rcases h with ⟨t, ht, hmatch⟩ | h
      · exact ⟨t, ht.trans (List.suffix_cons _ _), hmatch⟩
      · exact h
    obtain ⟨rest, hrest, hsuffix, rfl⟩ := (Path.suffix_intercalate hne hslash).mp ht
    exact ⟨rest, hrest, hsuffix, hmatch⟩
  · rintro ⟨rest, hrest, hsuffix, hmatch⟩
    exact Or.inr ⟨_, (Path.suffix_intercalate hne hslash).mpr ⟨rest, hrest, hsuffix, rfl⟩, hmatch⟩

/-- A name in front of the last one is the first of some end of the path that goes on. -/
theorem mem_dropLast_iff {name : String} :
    name ∈ names.dropLast ↔ ∃ next rest, name :: next :: rest <:+ names := by
  induction names with
  | nil => simp
  | cons first names ih =>
    cases names with
    | nil => simp [List.suffix_cons_iff]
    | cons second names =>
      rw [List.dropLast_cons_cons, List.mem_cons, ih]
      constructor
      · rintro (rfl | ⟨next, rest, h⟩)
        · exact ⟨second, names, List.suffix_rfl⟩
        · exact ⟨next, rest, h.trans (List.suffix_cons _ _)⟩
      · rintro ⟨next, rest, h⟩
        rcases List.suffix_cons_iff.mp h with he | h
        · exact Or.inl (List.cons.inj he).1
        · exact Or.inr ⟨next, rest, h⟩

/-- A path starts with a name and a slash when this is its first name and more follow. -/
theorem starts_intercalate {name : String} (hname : '/' ∉ name.toList) (hne : names ≠ [])
    (hslash : ∀ n ∈ names, '/' ∉ n.toList) :
    (∃ t, ("/".intercalate names).toList = name.toList ++ '/' :: t) ↔
      ∃ next rest, names = name :: next :: rest := by
  constructor
  · rintro ⟨t, ht⟩
    have hsplit := congrArg (Text.splitOn '/') ht
    rw [Path.splitOn_intercalate hne hslash, Text.splitOn_append hname] at hsplit
    obtain ⟨first, more, rfl⟩ := List.exists_cons_of_ne_nil hne
    rw [List.map_cons] at hsplit
    obtain ⟨hfirst, hmore⟩ := List.cons.inj hsplit
    obtain rfl := String.toList_inj.mp hfirst
    cases more with
    | nil => exact absurd hmore.symm (Text.splitOn_ne_nil '/' t)
    | cons next rest => exact ⟨next, rest, rfl⟩
  · rintro ⟨next, rest, rfl⟩
    rw [Path.intercalate_toList]
    exact ⟨_, Text.joinWith_cons (by simp) _⟩

/-- A pattern behind two stars and a slash takes a path out when it matches the path from some name
on. A directory with two stars behind it is taken out wherever it stands on the way to the file. -/
theorem an_exclusion_at_any_depth_looks_at_every_end (hne : names ≠ [])
    (hslash : ∀ n ∈ names, '/' ∉ n.toList) :
    (∀ pattern : String, isExcluded ("/".intercalate names) ["**/" ++ pattern] = true ↔
      ∃ rest, rest ≠ [] ∧ rest <:+ names ∧
        Text.wildcardMatch pattern.toList ("/".intercalate rest).toList = true) ∧
    ∀ dir : String, '/' ∉ dir.toList → Text.IsLiteral dir.toList →
      (isExcluded ("/".intercalate names) ["**/" ++ dir ++ "/**"] = true ↔
        dir ∈ names.dropLast) := by
  refine ⟨isExcluded_anyDepth hne hslash, fun dir hdir hliteral => ?_⟩
  have hpattern : (dir ++ "/**").toList = dir.toList ++ ['/', '*', '*'] := by
    rw [String.toList_append]
    rfl
  rw [String.append_assoc, isExcluded_anyDepth hne hslash, mem_dropLast_iff, hpattern]
  constructor
  · rintro ⟨rest, hrest, hsuffix, hmatch⟩
    have hstarts := (Text.wildcardMatch_inside hliteral).mp hmatch
    have hnames : ∀ n ∈ rest, '/' ∉ n.toList := fun n hn => hslash n (hsuffix.subset hn)
    obtain ⟨next, more, rfl⟩ := (starts_intercalate hdir hrest hnames).mp hstarts
    exact ⟨next, more, hsuffix⟩
  · rintro ⟨next, more, hsuffix⟩
    have hnames : ∀ n ∈ dir :: next :: more, '/' ∉ n.toList := fun n hn =>
      hslash n (hsuffix.subset hn)
    have hstarts := (starts_intercalate hdir (by simp) hnames).mpr ⟨next, more, rfl⟩
    exact ⟨_, by simp, hsuffix, (Text.wildcardMatch_inside hliteral).mpr hstarts⟩

theorem a_directory_is_taken_out_below_another :
    let names := ["test", "node_modules", "a.ts"]
    names ≠ [] ∧ (∀ n ∈ names, '/' ∉ n.toList) ∧
      isExcluded ("/".intercalate names) ["**/" ++ "node_modules" ++ "/**"] = true ∧
      isExcluded ("/".intercalate names) ["**/" ++ "a.ts" ++ "/**"] = false := by
  intro names
  have hne : names ≠ [] := by decide
  have hslash : ∀ n ∈ names, '/' ∉ n.toList := by decide
  obtain ⟨-, hdir⟩ := an_exclusion_at_any_depth_looks_at_every_end hne hslash
  have hmodules := hdir "node_modules" (by decide) (Text.isLiteral_of_plain (by simp))
  have hfile := hdir "a.ts" (by decide) (Text.isLiteral_of_plain (by simp))
  refine ⟨hne, hslash, hmodules.mpr (by decide), ?_⟩
  rw [← Bool.not_eq_true, hfile]
  decide

/-! ## Ways that turn back -/

namespace Discovery

variable {d : Disk} {s : Settings} {files : List Location}

/-- The selected files are the places that the patterns of the settings lead to. -/
theorem mem_files_iff (h : Discovery.files d s = .ok files) {l : Location} :
    l ∈ files ↔ ∃ pattern ∈ s.selected, ∃ parts, Glob.parse pattern = .ok parts ∧
      ∃ spelled, Selects d s parts spelled ∧ l = Location.walk s.root spelled := by
  refine ⟨selects_of_mem h, ?_⟩
  rintro ⟨pattern, hpattern, parts, hparts, spelled, ⟨⟨all, hall, hin⟩, hfile, hkept⟩, rfl⟩
  unfold Discovery.files at h
  obtain ⟨lists, hlists, h⟩ := bind_ok h
  cases h
  obtain ⟨found, hfound, hof⟩ := mapM_ok_mem hlists hpattern
  rw [hparts] at hof
  have hof : ofPattern d s parts = .ok found := mapError_ok hof
  unfold ofPattern at hof
  obtain ⟨all', hall', hof⟩ := bind_ok hof
  rw [hall] at hall'
  cases hall'
  obtain ⟨wanted, hwanted, hof⟩ := bind_ok hof
  cases hof
  have hwants : isWanted d s spelled = .ok true := by
    unfold isWanted
    rw [hfile, hkept]
    rfl
  refine Location.mem_sorted.mpr (List.mem_flatten.mpr ⟨_, hfound, ?_⟩)
  exact List.mem_map_of_mem (((filterM_ok hwanted).2 spelled).mpr ⟨hin, hwants⟩)

/-- A way without parent steps that leads to a place below the root is the path of the place. -/
theorem eq_of_walk {root : Location} {spelled : List String} (h : ".." ∉ spelled)
    (hwalk : Location.walk root spelled = root ++ names) : spelled = names := by
  rw [Location.walk_down h] at hwalk
  exact List.append_cancel_left hwalk

/-- A file whose path from the root is taken out is selected all the same exactly when a pattern
with a parent step leads to it on a way that turns back, and no exclusion matches that way as it is
spelled. -/
theorem an_excluded_file_is_found_only_by_a_detour (hd : d.Named)
    (h : Discovery.files d s = .ok files)
    (hexcluded : isExcluded ("/".intercalate names) s.excluded = true) :
    s.root ++ names ∈ files ↔ ∃ pattern ∈ s.selected, ¬ StaysBelow pattern ∧
      ∃ parts, Glob.parse pattern = .ok parts ∧ ∃ spelled, ".." ∈ spelled ∧
        Selects d s parts spelled ∧ Location.walk s.root spelled = s.root ++ names := by
  rw [mem_files_iff h]
  constructor
  · rintro ⟨pattern, hpattern, parts, hparts, spelled, hselects, hwalk⟩
    have hup : ".." ∈ spelled := by
      by_contra hnot
      have hkept := hselects.kept
      rw [eq_of_walk hnot hwalk.symm, hexcluded] at hkept
      cases hkept
    have hpart : ".." ∈ (Path.ofString pattern).parts := by
      obtain ⟨all, hall, hin⟩ := hselects.run
      rcases Glob.mem_of_run hall hin hup with ⟨x, hx, hn⟩ | hn
      · exact absurd rfl (hd x hx _ hn).1
      · exact Glob.named_of_parse hparts hn
    exact ⟨pattern, hpattern, fun hbelow => hbelow hpart, parts, hparts, spelled, hup, hselects,
      hwalk.symm⟩
  · rintro ⟨pattern, hpattern, -, parts, hparts, spelled, -, hselects, hwalk⟩
    exact ⟨pattern, hpattern, parts, hparts, spelled, hselects, hwalk.symm⟩

/-- A project whose pattern goes into one directory and back, to a directory that is taken out. -/
def detourDisk : Disk :=
  ⟨[(["p"], .directory), (["p", "test"], .directory), (["p", "lib"], .directory),
    (["p", "lib", "a.ts"], .file [])]⟩

def detourSettings : Settings :=
  { Settings.ofRoot ["p"] with selected := ["test/../lib/*.ts"], excluded := ["lib/**"] }

theorem detour_files : Discovery.files detourDisk detourSettings = .ok [["p", "lib", "a.ts"]] :=
  files_of_rising [[["p", "lib", "a.ts"]]] (by decide) (by decide)

theorem a_detour_leads_to_an_excluded_file :
    detourDisk.Named ∧
    Discovery.files detourDisk detourSettings = .ok [["p", "lib", "a.ts"]] ∧
    isExcluded ("/".intercalate ["lib", "a.ts"]) detourSettings.excluded = true ∧
    ∃ pattern ∈ detourSettings.selected, ¬ StaysBelow pattern := by
  have hd : detourDisk.Named := by decide
  have hexcluded : isExcluded ("/".intercalate ["lib", "a.ts"]) detourSettings.excluded = true := by
    decide
  obtain ⟨pattern, hpattern, hup, -⟩ :=
    (an_excluded_file_is_found_only_by_a_detour hd detour_files hexcluded).mp (by decide)
  exact ⟨hd, detour_files, hexcluded, pattern, hpattern, hup⟩

/-- So an exclusion that matches the path of a file does not keep it from being selected. -/
theorem an_excluded_file_can_be_found :
    ¬ ∀ (d : Disk) (s : Settings) (files : List Location), d.Named →
      Discovery.files d s = .ok files → ∀ names, s.root ++ names ∈ files →
      isExcluded ("/".intercalate names) s.excluded = false := by
  intro h
  have hkept := h detourDisk detourSettings _ (by decide) detour_files ["lib", "a.ts"] (by decide)
  exact absurd hkept (by decide)

end Discovery

end Sourcebook
