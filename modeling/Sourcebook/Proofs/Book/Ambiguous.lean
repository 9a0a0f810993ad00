-- A name that more than one file answers. It means the first of them by the order of the names in
-- their paths, however the files were listed, and the warning tells of all of them in that order.
import Mathlib
import Sourcebook.Book.Include
import Sourcebook.Proofs.Book.Includable
import Sourcebook.Proofs.Disk.Links

namespace Sourcebook

namespace Shelf

/-! ## Names and the places that answer them -/

/-- A name alone is answered by the places that have it, several names by the places that they are
the last names of. -/
def Answers (names : List String) (l : Location) : Prop :=
  match names with
  | [name] => Location.name l = name
  | _ => names <:+ l

instance (names : List String) (l : Location) : Decidable (Answers names l) := by
  unfold Answers
  split
  · infer_instance
  · infer_instance

/-- A name alone, or the parts of a path that stay below where they start. The first does not start
with a dot. -/
structure Written (names : List String) : Prop where
  ne_nil : names ≠ []
  dot : ("/".intercalate names).toList.head? ≠ some '.'
  slash : ∀ n ∈ names, '/' ∉ n.toList
  plain : 1 < names.length → ∀ n ∈ names, IsPart n ∧ n ≠ ".."

variable {names : List String} {l : Location} {files : List Location}

theorem isAbsolute_of_name {name : String} (h : '/' ∉ name.toList) :
    (Path.ofString name).isAbsolute = false := by
  unfold Path.isAbsolute Path.ofString
  cases hname : name.toList with
  | nil => rfl
  | cons c cs =>
    have hc : c ≠ '/' := fun he => h (by rw [hname, he]; exact List.mem_cons_self)
    rw [Path.rootOf_of_ne hc]
    rfl

theorem slash_mem_intercalate (h : 1 < names.length) : '/' ∈ ("/".intercalate names).toList := by
  obtain ⟨first, second, rest, rfl⟩ : ∃ first second rest, names = first :: second :: rest := by
    match names, h with
    | first :: second :: rest, _ => exact ⟨first, second, rest, rfl⟩
  rw [Path.intercalate_toList, List.map_cons, List.map_cons, Text.joinWith_cons (by simp)]
  simp

/-- The text of a path ends in the names of a target when its last names are these. -/
theorem isSuffixOf_text (hne : names ≠ []) (hslash : ∀ n ∈ names, '/' ∉ n.toList)
    (hlong : 1 < names.length) (hl : l.Named) :
    ('/' :: ("/".intercalate names).toList).isSuffixOf (Location.text l).toList = true ↔
      names <:+ l := by
  have hplace : ∀ n ∈ l, '/' ∉ n.toList := fun n hn => (hl n hn).2
  have htext : (Location.text l).toList = '/' :: ("/".intercalate l).toList := by
    unfold Location.text
    rw [String.toList_append]
    rfl
  rw [List.isSuffixOf_iff_suffix, htext]
  cases l with
  | nil =>
    have hlength := List.length_pos_of_mem (slash_mem_intercalate hlong)
    constructor
    · intro h
      have hle := h.length_le
      simp only [List.length_cons, String.intercalate_nil, String.toList_empty,
        List.length_nil] at hle
      omega
    · intro h
      exact absurd (List.suffix_nil.mp h) hne
  | cons m l =>
    rw [Path.suffix_intercalate (by simp) hplace]
    constructor
    · rintro ⟨rest, hrest, hsuffix, he⟩
      have hrestslash : ∀ n ∈ rest, '/' ∉ n.toList := fun n hn => hplace n (hsuffix.subset hn)
      rw [Path.intercalate_inj hne hslash hrest hrestslash he]
      exact hsuffix
    · intro hsuffix
      exact ⟨names, hne, hsuffix, rfl⟩

theorem answers_iff (hnames : Written names) (hl : l.Named) :
    answers ("/".intercalate names) l = true ↔ Answers names l := by
  unfold Answers
  split
  · next name =>
    have hname : '/' ∉ name.toList := hnames.slash name List.mem_cons_self
    unfold answers
    simp [hname]
  · next hmany =>
    have hlong : 1 < names.length := by
      rcases names with _ | ⟨first, _ | ⟨second, rest⟩⟩
      · exact absurd rfl hnames.ne_nil
      · exact absurd rfl (hmany first)
      · simp
    have hsome : ("/".intercalate names).toList.contains '/' = true := by
      simpa using slash_mem_intercalate hlong
    unfold answers
    rw [if_pos hsome]
    exact isSuffixOf_text hnames.ne_nil hnames.slash hlong hl

/-! ## The list in order -/

/-- What a search finds among files that are listed in any order: the first place that answers, by
the order of its names, and a warning with all of them in that order where there are others. -/
structure FindsFirst (shelf : Shelf) (files : List Location) (names : List String)
    (found : Found) : Prop where
  nothing : found.path = none ↔ ∀ l ∈ files, ¬ Answers names l
  silent : found.path = none → found.warning = none
  first : ∀ p, found.path = some p → ∃ l ∈ files, Answers names l ∧ p = Path.ofLocation l ∧
    ∀ m ∈ files, Answers names m → l ≤ m
  warning : ∃ answering : List Location, answering.Pairwise (· < ·) ∧
    (∀ l, l ∈ answering ↔ l ∈ files ∧ Answers names l) ∧
    found.warning = if 1 < answering.length
      then some (shelf.ambiguous ("/".intercalate names) answering) else none
  shelf : found.shelf = shelf

variable (disk : Disk) (settings : Settings)

/-- The order in which files are listed does not matter. -/
theorem ofFiles_perm {files' : List Location} (h : files'.Perm files) :
    ofFiles disk settings files' = ofFiles disk settings files := by
  unfold ofFiles
  rw [show files'.mergeSort Location.before = files.mergeSort Location.before from sort_congr h]

/-- Different files stand on a shelf in rising order. -/
theorem rising_ofFiles (h : files.Nodup) : (files.mergeSort Location.before).Pairwise (· < ·) := by
  have hle : (files.mergeSort Location.before).Pairwise (· ≤ ·) := pairwise_sort files
  have hne : (files.mergeSort Location.before).Nodup := (List.mergeSort_perm _ _).nodup_iff.mpr h
  exact (hle.and hne).imp fun ⟨hle, hne⟩ => Std.lt_of_le_of_ne hle hne

/-- The first of a list of places as a search gives it, with all of them in a warning when there are
others. -/
theorem amongListed_eq {s : Shelf} {target : String} {listed answering : List Location}
    (hlist : s.listed = some listed) (h : listed.filter (answers target) = answering) :
    s.amongListed target = .ok ⟨answering.head?.map Path.ofLocation,
      if 1 < answering.length then some (s.ambiguous target answering) else none, s⟩ := by
  have hkept : { s with listed := some listed } = s := by rw [← hlist]
  unfold amongListed list
  rw [hlist]
  simp only [h, hkept]
  rcases answering with _ | ⟨l, _ | ⟨m, more⟩⟩
  · rfl
  · rfl
  · simp

theorem amongListed_ofFiles (hdistinct : files.Nodup) (hfiles : ∀ l ∈ files, l.Named)
    (hnames : Written names) :
    ∃ found, (ofFiles disk settings files).amongListed ("/".intercalate names) = .ok found ∧
      FindsFirst (ofFiles disk settings files) files names found := by
  obtain ⟨answering, hanswering⟩ : ∃ ms,
      (files.mergeSort Location.before).filter (answers ("/".intercalate names)) = ms := ⟨_, rfl⟩
  have hrising : answering.Pairwise (· < ·) := by
    rw [← hanswering]
    exact (rising_ofFiles hdistinct).filter _
  have hmem : ∀ l, l ∈ answering ↔ l ∈ files ∧ Answers names l := by
    intro l
    rw [← hanswering, List.mem_filter, List.mem_mergeSort]
    exact and_congr_right fun hl => answers_iff hnames (hfiles l hl)
  have hnone : answering.head?.map Path.ofLocation = none ↔ answering = [] := by simp
  refine ⟨_, amongListed_eq rfl hanswering, ?_, ?_, ?_, ⟨answering, hrising, hmem, rfl⟩, rfl⟩
  · rw [hnone, List.eq_nil_iff_forall_not_mem]
    constructor
    · intro hnil l hl hanswers
      exact hnil l ((hmem l).mpr ⟨hl, hanswers⟩)
    · intro hno l hl
      obtain ⟨hin, hanswers⟩ := (hmem l).mp hl
      exact hno l hin hanswers
  · intro hpath
    rw [hnone.mp hpath]
    rfl
  · intro p hp
    rcases answering with _ | ⟨l, more⟩
    · cases hp
    · cases hp
      obtain ⟨hin, hanswers⟩ := (hmem l).mp List.mem_cons_self
      refine ⟨l, hin, hanswers, rfl, fun m hm hanswers => ?_⟩
      rcases List.mem_cons.mp ((hmem m).mpr ⟨hm, hanswers⟩) with rfl | hmore
      · exact Std.le_refl m
      · exact Std.le_of_lt ((List.pairwise_cons.mp hrising).1 m hmore)

theorem Written.ofString (h : Written names) (hmany : 1 < names.length) :
    Path.ofString ("/".intercalate names) = ⟨.none, names⟩ :=
  Path.ofString_of_parts fun n hn => (h.plain hmany n hn).1

/-- Several names are looked at as a path from the root before the list is asked. -/
theorem find_written (shelf : Shelf) (current : Path) (h : Written names)
    (hmany : 1 < names.length) :
    shelf.Looked (Path.ofString ("/".intercalate names))
      (Path.ofLocation (shelf.settings.root ++ names)) (shelf.find ("/".intercalate names) current)
      (shelf.find ("/".intercalate names) current = shelf.amongListed ("/".intercalate names)) := by
  have hparts := h.ofString hmany
  have hplace : (Path.ofString ("/".intercalate names)).normal shelf.settings.root =
      shelf.settings.root ++ names := by
    rw [hparts]
    exact Location.walk_down fun hup => (h.plain hmany _ hup).2 rfl
  rw [← hplace]
  exact find_looked (by rw [hparts]; rfl) h.dot (slash_mem_intercalate hmany)

/-- What a name means does not depend on the order in which the files are listed. It is the first
place that answers it, by the order of the names, and a warning tells of all when there are more.
A path with slashes is looked at from the root before that, and only this look can fail. -/
theorem a_name_means_the_first_file_that_answers (hdistinct : files.Nodup)
    (hfiles : ∀ l ∈ files, l.Named) (hnames : Written names) (current : Path) :
    let target := "/".intercalate names
    let shelf := ofFiles disk settings files
    let result := shelf.find target current
    let answer := ∃ found, result = .ok found ∧ FindsFirst shelf files names found
    (∀ files' : List Location, files'.Perm files →
      (ofFiles disk settings files').find target current = result) ∧
    (names.length = 1 → answer) ∧
    (1 < names.length →
      shelf.Looked (Path.ofString target) (Path.ofLocation (settings.root ++ names)) result
        answer) := by
  intro target shelf result answer
  have hlisted := amongListed_ofFiles disk settings hdistinct hfiles hnames
  refine ⟨fun files' h => ?_, fun hone => ?_, fun hmany => ?_⟩
  · rw [ofFiles_perm disk settings h]
  · obtain ⟨name, rfl⟩ := List.length_eq_one_iff.mp hone
    have hname : '/' ∉ name.toList := hnames.slash name List.mem_cons_self
    have htarget : target = name := by simp [target]
    have habsolute : (Path.ofString target).isAbsolute = false := by
      rw [htarget]
      exact isAbsolute_of_name hname
    have hfind : result = shelf.amongListed target :=
      find_eq_amongListed habsolute hnames.dot (by rw [htarget]; exact hname)
    change ∃ found, result = .ok found ∧ _
    rw [hfind]
    exact hlisted
  · refine (find_written shelf current hnames hmany).imp fun hfind => ?_
    change ∃ found, result = .ok found ∧ _
    rw [show result = shelf.amongListed target from hfind]
    exact hlisted

/-- A project with no files of its own, and two files that a search is given. -/
def bareDisk : Disk := ⟨[(["p"], .directory)]⟩

def twoFiles : List Location := [["p", "x-y", "lib", "T.sol"], ["p", "x", "lib", "T.sol"]]

/-- The order of the names counts, and not that of the texts of the paths, where a hyphen stands
before a slash. -/
theorem a_shorter_name_comes_first :
    twoFiles.Nodup ∧ (∀ l ∈ twoFiles, l.Named) ∧ Written ["lib", "T.sol"] ∧
    ∃ found, (ofFiles bareDisk (.ofRoot ["p"]) twoFiles).find ("/".intercalate ["lib", "T.sol"])
        ⟨.single, []⟩ = .ok found ∧
      found.path = some (Path.ofLocation ["p", "x", "lib", "T.sol"]) ∧
      found.warning.isSome = true := by
  have hdistinct : twoFiles.Nodup := by decide
  have hfiles : ∀ l ∈ twoFiles, l.Named := by decide
  have hnames : Written ["lib", "T.sol"] := ⟨by decide, by decide, by decide, fun _ => by decide⟩
  obtain ⟨-, -, hlooked⟩ := a_name_means_the_first_file_that_answers bareDisk (.ofRoot ["p"])
    hdistinct hfiles hnames ⟨.single, []⟩
  obtain ⟨found, hfound, hfirst⟩ := (hlooked (by decide)).rest (by decide) rfl
  refine ⟨hdistinct, hfiles, hnames, found, hfound, ?_, ?_⟩
  · rcases hpath : found.path with _ | p
    · exact absurd (by decide) (hfirst.nothing.mp hpath ["p", "x", "lib", "T.sol"] (by decide))
    · obtain ⟨l, hl, -, rfl, hleast⟩ := hfirst.first p hpath
      have hle : l ≤ ["p", "x", "lib", "T.sol"] := hleast _ (by decide) (by decide)
      rcases List.mem_cons.mp hl with rfl | hl
      · exact absurd hle (by decide)
      · rw [List.mem_singleton.mp hl]
  · obtain ⟨answering, -, hmem, hwarning⟩ := hfirst.warning
    have h1 : ["p", "x-y", "lib", "T.sol"] ∈ answering := (hmem _).mpr ⟨by decide, by decide⟩
    have h2 : ["p", "x", "lib", "T.sol"] ∈ answering := (hmem _).mpr ⟨by decide, by decide⟩
    have hlong : 1 < answering.length := by
      rcases answering with _ | ⟨l, _ | ⟨m, more⟩⟩
      · cases h1
      · rw [List.mem_singleton] at h1 h2
        rw [← h1] at h2
        exact absurd h2 (by decide)
      · simp
    rw [hwarning, if_pos hlong]
    rfl

/-! ## A name that is not looked up -/

/-- A name that is one character longer than a directory can hold. -/
def longName : String := String.ofList (List.replicate (Disk.maxName + 1) 'x')

theorem mem_longName {c : Char} (h : c ∈ longName.toList) : c = 'x' := by
  unfold longName at h
  rw [String.toList_ofList] at h
  exact List.eq_of_mem_replicate h

theorem longName_ne {name : String} (h : name.toList.length ≤ Disk.maxName) : longName ≠ name := by
  rintro rfl
  unfold longName at h
  rw [String.toList_ofList, List.length_replicate] at h
  omega

theorem slash_not_mem_longName : '/' ∉ longName.toList :=
  fun h => absurd (mem_longName h) (by decide)

theorem written_longName : Written [longName, "T.sol"] where
  ne_nil := by simp
  dot := by
    intro hdot
    rw [Path.intercalate_toList, List.map_cons, List.map_cons, Text.joinWith_cons (by simp),
      List.head?_append_of_ne_nil _ (by simp [longName])] at hdot
    exact absurd (mem_longName (List.mem_of_mem_head? hdot)) (by decide)
  slash := by
    intro n hn
    rcases List.mem_cons.mp hn with rfl | hn
    · exact slash_not_mem_longName
    · rw [List.mem_singleton.mp hn]
      decide
  plain := by
    intro _ n hn
    rcases List.mem_cons.mp hn with rfl | hn
    · exact ⟨⟨longName_ne (by decide), longName_ne (by decide), slash_not_mem_longName⟩,
        longName_ne (by decide)⟩
    · rw [List.mem_singleton.mp hn]
      decide

theorem hasNull_longName {p : Path} (h : ∀ n ∈ p.parts, n ∈ ["p", longName, "T.sol"]) :
    p.hasNull = false := by
  unfold Path.hasNull
  rw [List.any_eq_false]
  intro n hn hnull
  have hmem : '\x00' ∈ n.toList := by simpa using hnull
  have hname := h n hn
  simp only [List.mem_cons, List.not_mem_nil, or_false] at hname
  rcases hname with rfl | rfl | rfl
  · exact absurd hmem (by decide)
  · exact absurd (mem_longName hmem) (by decide)
  · exact absurd hmem (by decide)

/-- Where a directory is there, a name in it that is too long is trouble. -/
theorem isFile_longName : ∃ t,
    bareDisk.isFile (Path.ofLocation ["p", longName, "T.sol"]) = .error t := by
  have hnull : (Path.ofLocation ["p", longName, "T.sol"]).hasNull = false :=
    hasNull_longName fun n hn => hn
  have hlong : Disk.maxName < longName.utf8ByteSize := by decide +kernel
  have hfirst : ∀ rest, bareDisk.follow [] ("p" :: rest) = bareDisk.follow ["p"] rest :=
    fun _ => rfl
  have hfollow : bareDisk.follow [] ["p", longName, "T.sol"] = .error .tooLong := by
    rw [hfirst, Disk.follow, show bareDisk.get? ["p"] = some .directory by decide]
    exact if_pos hlong
  have hlocate : bareDisk.locate (Path.ofLocation ["p", longName, "T.sol"]) = .error .tooLong := by
    unfold Disk.locate
    split
    · rfl
    · exact hfollow
  unfold Disk.isFile Disk.find?
  rw [hnull, hlocate]
  exact ⟨_, rfl⟩

/-- So a name that nothing answers can end a search instead of finding nothing. -/
theorem a_name_that_nothing_answers_can_end_the_search :
    ¬ ∀ (disk : Disk) (settings : Settings) (files : List Location) (names : List String)
      (current : Path), files.Nodup → (∀ l ∈ files, l.Named) → Written names →
      (1 < names.length →
        disk.isFile (Path.ofLocation (settings.root ++ names)) ≠ .ok true) →
      ∃ found, (ofFiles disk settings files).find ("/".intercalate names) current = .ok found ∧
        FindsFirst (ofFiles disk settings files) files names found := by
  intro h
  obtain ⟨t, htrouble⟩ := isFile_longName
  obtain ⟨found, hfound, -⟩ := h bareDisk (.ofRoot ["p"]) [] [longName, "T.sol"] ⟨.single, []⟩
    List.nodup_nil (by simp) written_longName fun _ hfile => by
      cases htrouble.symm.trans hfile
  have hlooked := find_written (ofFiles bareDisk (.ofRoot ["p"]) []) ⟨.single, []⟩ written_longName
    (by decide)
  have hnull : (Path.ofString ("/".intercalate [longName, "T.sol"])).hasNull = false := by
    rw [written_longName.ofString (by decide)]
    exact hasNull_longName fun n hn => List.mem_cons_of_mem _ hn
  rw [hlooked.trouble hnull htrouble] at hfound
  cases hfound

end Shelf

end Sourcebook
