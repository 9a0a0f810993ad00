-- Making directories: a path can be made when no file stands on the way that it leads, and then
-- every place on that way is a directory.
import Mathlib
import Sourcebook.Proofs.Disk.Files
import Sourcebook.Proofs.Disk.Paths

namespace Sourcebook

/-! ## The way of a path -/

namespace Path

/-- The places that a path leads through, the first and the last among them. -/
def trail (p : Path) : List Location := p.parts.inits.map (Location.walk [])

theorem mem_trail {p : Path} {k : Location} :
    k ∈ p.trail ↔ ∃ spelled, spelled <+: p.parts ∧ k = Location.walk [] spelled := by
  unfold trail
  rw [List.mem_map]
  constructor
  · rintro ⟨spelled, hspelled, rfl⟩
    exact ⟨spelled, (List.mem_inits _ _).mp hspelled, rfl⟩
  · rintro ⟨spelled, hspelled, rfl⟩
    exact ⟨spelled, (List.mem_inits _ _).mpr hspelled, rfl⟩

theorem normal_mem_trail (p : Path) : p.normal [] ∈ p.trail :=
  mem_trail.mpr ⟨p.parts, List.prefix_refl _, normal_eq p⟩

theorem normal_ofLocation {l : Location} (h : ".." ∉ l) : (ofLocation l).normal [] = l := by
  rw [normal_eq]
  exact Location.walk_down h

theorem trail_subset {p q : Path} (h : q.parts <+: p.parts) {k : Location} (hk : k ∈ q.trail) :
    k ∈ p.trail := by
  obtain ⟨spelled, hspelled, rfl⟩ := mem_trail.mp hk
  exact mem_trail.mpr ⟨spelled, hspelled.trans h, rfl⟩

/-- A path leads through its last place and through those before. -/
theorem mem_trail_snoc {root : PathRoot} {parts : List String} {part : String} {k : Location} :
    k ∈ (⟨root, parts ++ [part]⟩ : Path).trail ↔
      k ∈ (⟨root, parts⟩ : Path).trail ∨ k = Location.walk [] (parts ++ [part]) := by
  rw [mem_trail, mem_trail]
  constructor
  · rintro ⟨spelled, hspelled, rfl⟩
    rcases List.prefix_concat_iff.mp hspelled with rfl | hspelled
    · exact Or.inr rfl
    · exact Or.inl ⟨spelled, hspelled, rfl⟩
  · rintro (⟨spelled, hspelled, rfl⟩ | rfl)
    · exact ⟨spelled, hspelled.trans (List.prefix_append _ _), rfl⟩
    · exact ⟨_, List.prefix_refl _, rfl⟩

/-- The way that a path is spelled leads through every place above its end. -/
theorem mem_trail_of_prefix {p : Path} {k : Location} (h : k <+: p.normal []) : k ∈ p.trail := by
  obtain ⟨root, parts⟩ := p
  rw [normal_eq] at h
  induction parts using List.reverseRecOn with
  | nil =>
    rw [List.prefix_nil.mp h]
    exact mem_trail.mpr ⟨[], List.prefix_refl _, rfl⟩
  | append_singleton parts part ih =>
    rw [mem_trail_snoc]
    simp only [Location.walk_snoc, Location.step] at h ⊢
    split at h
    · exact Or.inl (ih (h.trans (List.dropLast_prefix _)))
    · next hpart =>
      rw [if_neg hpart]
      rcases List.prefix_concat_iff.mp h with rfl | h
      · exact Or.inr rfl
      · exact Or.inl (ih h)

/-- A place is reached by its own names alone. -/
theorem mem_trail_ofLocation {l k : Location} (h : ".." ∉ l) : k ∈ (ofLocation l).trail ↔ k <+: l := by
  have hwalk : ∀ spelled, spelled <+: l → Location.walk [] spelled = spelled := fun spelled hpre =>
    Location.walk_down fun hup => h (hpre.subset hup)
  rw [mem_trail]
  constructor
  · rintro ⟨spelled, hpre, rfl⟩
    rw [hwalk spelled hpre]
    exact hpre
  · intro hpre
    exact ⟨k, hpre, (hwalk k hpre).symm⟩

/-- A path without parent steps leads down from the place that it is joined to. -/
theorem mem_trail_join {p q : Path} (hroot : q.root = .none) (hup : ".." ∉ q.parts) {k : Location} :
    k ∈ (p.join q).trail ↔ k ∈ p.trail ∨ ∃ more, more <+: q.parts ∧ k = p.normal [] ++ more := by
  have hwalk : ∀ more, more <+: q.parts →
      Location.walk [] (p.parts ++ more) = p.normal [] ++ more := by
    intro more hmore
    rw [Location.walk_append, ← normal_eq, Location.walk_down fun h => hup (hmore.subset h)]
  rw [mem_trail, join_of_relative hroot]
  constructor
  · rintro ⟨spelled, hpre, rfl⟩
    rcases List.prefix_or_prefix_of_prefix hpre (List.prefix_append p.parts q.parts) with hin | hin
    · exact Or.inl (mem_trail.mpr ⟨spelled, hin, rfl⟩)
    · obtain ⟨more, rfl⟩ := hin
      have hmore : more <+: q.parts := (List.prefix_append_right_inj p.parts).mp hpre
      exact Or.inr ⟨more, hmore, hwalk more hmore⟩
  · rintro (hin | ⟨more, hmore, rfl⟩)
    · obtain ⟨spelled, hpre, rfl⟩ := mem_trail.mp hin
      exact ⟨spelled, hpre.trans (List.prefix_append _ _), rfl⟩
    · exact ⟨p.parts ++ more, (List.prefix_append_right_inj p.parts).mpr hmore, (hwalk more hmore).symm⟩

/-! ## Lengths -/

/-- A path that can be looked up: neither it nor a name in it is too long. -/
structure Short (p : Path) : Prop where
  text : p.text.utf8ByteSize < Disk.pathLimit
  names : ∀ n ∈ p.parts, n.utf8ByteSize ≤ Disk.maxName

instance (p : Path) : Decidable p.Short :=
  decidable_of_iff (p.text.utf8ByteSize < Disk.pathLimit ∧
    ∀ n ∈ p.parts, n.utf8ByteSize ≤ Disk.maxName) ⟨fun h => ⟨h.1, h.2⟩, fun h => ⟨h.1, h.2⟩⟩

theorem size_text_snoc (root : PathRoot) (parts : List String) (part : String) :
    (⟨root, parts⟩ : Path).text.utf8ByteSize ≤
      max 1 (⟨root, parts ++ [part]⟩ : Path).text.utf8ByteSize := by
  have hnames : ("/".intercalate parts).utf8ByteSize ≤
      ("/".intercalate (parts ++ [part])).utf8ByteSize := by
    cases parts with
    | nil => exact Nat.zero_le _
    | cons n rest =>
      have hcut : "/".intercalate (n :: rest ++ [part]) =
          "/".intercalate (n :: rest) ++ ("/" ++ part) := by
        apply String.toList_injective
        rw [String.toList_append, String.toList_append, intercalate_toList, intercalate_toList,
          List.map_append, List.map_singleton, Text.joinWith_snoc (by simp)]
        rfl
      rw [hcut, String.utf8ByteSize_append]
      exact Nat.le_add_right _ _
  have htext : ∀ ns, (root = .none → ns ≠ []) →
      (⟨root, ns⟩ : Path).text = rootText root ++ "/".intercalate ns := by
    intro ns hns
    cases root with
    | none =>
      cases ns with
      | nil => exact absurd rfl (hns rfl)
      | cons n rest => rfl
    | single => rfl
    | double => rfl
  by_cases hparts : root = .none → parts ≠ []
  · rw [htext parts hparts, htext (parts ++ [part]) (by simp), String.utf8ByteSize_append,
      String.utf8ByteSize_append]
    omega
  · -- The empty relative path is written as a dot.
    push Not at hparts
    obtain ⟨rfl, rfl⟩ := hparts
    exact Nat.le_max_left _ _

theorem Short.front {root : PathRoot} {parts : List String} {part : String}
    (h : Short ⟨root, parts ++ [part]⟩) : Short ⟨root, parts⟩ where
  text := by
    have hsize := size_text_snoc root parts part
    have htext := h.text
    unfold Disk.pathLimit at htext ⊢
    omega
  names n hn := h.names n (List.mem_append_left _ hn)

end Path

namespace Disk

variable {d d' : Disk} {l : Location} {p : Path}

/-! ## Following -/

/-- A path leads on as long as its names are short and every place that it leaves is a directory. -/
theorem follow_eq_ok {parts : List String} {start : Location} :
    d.follow start parts = .ok l ↔ l = Location.walk start parts ∧
      (∀ n ∈ parts, n.utf8ByteSize ≤ maxName) ∧
      ∀ spelled, spelled <+: parts → spelled ≠ parts →
        d.get? (Location.walk start spelled) = some .directory := by
  induction parts generalizing start with
  | nil =>
    simp only [follow, Except.ok.injEq, List.prefix_nil]
    constructor
    · rintro rfl
      exact ⟨rfl, by simp, fun _ h hne => absurd h hne⟩
    · rintro ⟨rfl, -, -⟩
      rfl
  | cons part rest ih =>
    have hwalk : ∀ more, Location.walk start (part :: more) =
        Location.walk (Location.step start part) more := fun _ => rfl
    constructor
    · intro h
      simp only [follow] at h
      split at h
      · cases h
      · cases h
      · next hdir =>
        split at h
        · cases h
        · next hsize =>
          obtain ⟨hl, hnames, hplaces⟩ := ih.mp h
          refine ⟨hl, ?_, fun spelled hpre hne => ?_⟩
          · rintro n (_ | ⟨_, hn⟩)
            · exact Nat.not_lt.mp hsize
            · exact hnames n hn
          · cases spelled with
            | nil => exact hdir
            | cons m more =>
              obtain ⟨rfl, hmore⟩ := List.cons_prefix_cons.mp hpre
              rw [hwalk]
              exact hplaces more hmore fun he => hne (by rw [he])
    · rintro ⟨hl, hnames, hplaces⟩
      have hstart := hplaces [] (List.nil_prefix) (by simp)
      simp only [follow, show d.get? start = some .directory from hstart]
      rw [if_neg (Nat.not_lt.mpr (hnames part List.mem_cons_self))]
      refine ih.mpr ⟨hl, fun n hn => hnames n (List.mem_cons_of_mem _ hn), fun spelled hpre hne => ?_⟩
      rw [← hwalk]
      exact hplaces _ (List.cons_prefix_cons.mpr ⟨rfl, hpre⟩) fun he => hne (List.cons.inj he).2

/-- Where a path does not lead on, a place is missing, a file stands on the way, or a name is too
long. -/
theorem follow_error {parts : List String} {start : Location} {k : TroubleKind}
    (h : d.follow start parts = .error k) (hk : k ≠ .missing) :
    (∃ spelled, spelled <+: parts ∧ ∃ bytes, d.fileAt (Location.walk start spelled) = some bytes) ∨
      ∃ n ∈ parts, maxName < n.utf8ByteSize := by
  induction parts generalizing start with
  | nil => cases h
  | cons part rest ih =>
    simp only [follow] at h
    split at h
    · cases h
      exact absurd rfl hk
    · next bytes hfile =>
      exact Or.inl ⟨[], List.nil_prefix, bytes, fileAt_eq_some.mpr hfile⟩
    · split at h
      · next hsize => exact Or.inr ⟨part, List.mem_cons_self, hsize⟩
      · rcases ih h with ⟨spelled, hpre, hfile⟩ | ⟨n, hn, hsize⟩
        · exact Or.inl ⟨part :: spelled, List.cons_prefix_cons.mpr ⟨rfl, hpre⟩, hfile⟩
        · exact Or.inr ⟨n, List.mem_cons_of_mem _ hn, hsize⟩

theorem locate_eq_ok :
    d.locate p = .ok l ↔ l = p.normal [] ∧ p.Short ∧
      ∀ spelled, spelled <+: p.parts → spelled ≠ p.parts →
        d.get? (Location.walk [] spelled) = some .directory := by
  unfold locate
  rw [Path.normal_eq]
  split
  · next hlong => exact iff_of_false (fun h => nomatch h) fun h => absurd h.2.1.text (Nat.not_lt.mpr hlong)
  · next hshort =>
    rw [follow_eq_ok]
    exact ⟨fun ⟨hl, hnames, hplaces⟩ => ⟨hl, ⟨Nat.not_le.mp hshort, hnames⟩, hplaces⟩,
      fun ⟨hl, hs, hplaces⟩ => ⟨hl, hs.names, hplaces⟩⟩

/-- A short path without a file on its way can only lead to a missing place. -/
theorem locate_cases (hs : p.Short) (hfiles : ∀ k ∈ p.trail, d.fileAt k = none) :
    d.locate p = .ok (p.normal []) ∨ d.locate p = .error .missing := by
  unfold locate
  rw [if_neg (Nat.not_le.mpr hs.text)]
  cases h : d.follow [] p.parts with
  | ok l =>
    rw [follow_eq_walk h, Path.normal_eq]
    exact Or.inl rfl
  | error k =>
    by_cases hk : k = .missing
    · rw [hk]
      exact Or.inr rfl
    · rcases follow_error h hk with ⟨spelled, hpre, bytes, hfile⟩ | ⟨n, hn, hsize⟩
      · rw [hfiles _ (Path.mem_trail.mpr ⟨spelled, hpre, rfl⟩)] at hfile
        cases hfile
      · exact absurd (hs.names n hn) (Nat.not_le.mpr hsize)

/-- A path to a directory is short, and every place on its way is a directory. -/
theorem isDir_true (h : d.isDir p = .ok true) :
    p.Short ∧ ∀ k ∈ p.trail, d.get? k = some .directory := by
  unfold isDir find? at h
  split at h
  · cases h
  · split at h
    · next l hl =>
      obtain ⟨rfl, hs, hplaces⟩ := locate_eq_ok.mp hl
      refine ⟨hs, fun k hk => ?_⟩
      obtain ⟨spelled, hpre, rfl⟩ := Path.mem_trail.mp hk
      by_cases he : spelled = p.parts
      · rw [he, ← Path.normal_eq]
        simpa [Except.map] using h
      · exact hplaces spelled hpre he
    · cases h
    · cases h

/-! ## Making -/

/-- After one directory was made, all places on the way to it are directories. -/
theorem makeDirectory_made (h : d.makeDirectory p = .ok d') :
    ∀ k ∈ p.trail, d'.get? k = some .directory := by
  obtain ⟨-, -, hplaces⟩ := locate_eq_ok.mp (makeDirectory_eq_ok.mp h).1
  intro k hk
  rw [get?_makeDirectory h]
  split
  · rfl
  · next hne =>
    obtain ⟨spelled, hpre, rfl⟩ := Path.mem_trail.mp hk
    refine hplaces spelled hpre fun he => hne ?_
    rw [he, Path.normal_eq]

/-- What was made when nothing failed. -/
structure Made (d d' : Disk) (p : Path) : Prop where
  trail : ∀ k ∈ p.trail, d'.get? k = some .directory
  apart : ∀ k, k ∉ p.trail → d'.get? k = d.get? k

theorem makeDirectory_apart (h : d.makeDirectory p = .ok d') {k : Location} (hk : k ∉ p.trail) :
    d'.get? k = d.get? k := by
  rw [get?_makeDirectory h, if_neg]
  rintro rfl
  exact hk (Path.normal_mem_trail p)

theorem makeDirectoriesFrom_ok {root : PathRoot} {part : String} {above : List String}
    (h : makeDirectoriesFrom root d (part :: above) = (d', none)) :
    let p : Path := ⟨root, (part :: above).reverse⟩
    d.makeDirectory p = .ok d' ∨ (d' = d ∧ d.isDir p = .ok true) ∨
      ∃ d1, makeDirectoriesFrom root d above = (d1, none) ∧
        (d1.makeDirectory p = .ok d' ∨ d' = d1 ∧ d1.isDir p = .ok true) := by
  intro p
  simp only [makeDirectoriesFrom] at h
  split at h
  · next d1 h1 =>
    cases h
    exact Or.inl h1
  · split at h
    · split at h
      · cases h
      · next d1 h1 =>
        refine Or.inr (Or.inr ⟨d1, h1, ?_⟩)
        split at h
        · next d2 h2 =>
          cases h
          exact Or.inl h2
        · split at h
          · cases h
          · exact Or.inr (settle_eq_none h)
    · exact Or.inr (Or.inl (settle_eq_none h))

theorem makeDirectoriesFrom_made {root : PathRoot} {parts : List String}
    (h : makeDirectoriesFrom root d parts = (d', none)) : Made d d' ⟨root, parts.reverse⟩ := by
  induction parts generalizing d' with
  | nil =>
    cases h
    refine ⟨fun k hk => ?_, fun _ _ => rfl⟩
    obtain ⟨spelled, hpre, rfl⟩ := Path.mem_trail.mp hk
    rw [List.prefix_nil.mp hpre]
    rfl
  | cons part above ih =>
    rcases makeDirectoriesFrom_ok h with hone | ⟨rfl, hthere⟩ | ⟨d1, hfirst, hlast⟩
    · exact ⟨makeDirectory_made hone, fun k hk => makeDirectory_apart hone hk⟩
    · exact ⟨(isDir_true hthere).2, fun _ _ => rfl⟩
    · have hbefore := ih hfirst
      have happart : ∀ k, k ∉ (⟨root, (part :: above).reverse⟩ : Path).trail →
          d1.get? k = d.get? k := by
        refine fun k hk => hbefore.apart k fun hmem => hk (Path.trail_subset ?_ hmem)
        rw [List.reverse_cons]
        exact List.prefix_append _ _
      rcases hlast with hone | ⟨rfl, hthere⟩
      · exact ⟨makeDirectory_made hone, fun k hk => (makeDirectory_apart hone hk).trans (happart k hk)⟩
      · exact ⟨(isDir_true hthere).2, happart⟩

/-- Where all directories of a path could be made, its way consists of directories, and nothing
else has changed. -/
theorem layDirectories_made (h : d.layDirectories p = (d', none)) : Made d d' p := by
  have hmade := makeDirectoriesFrom_made h
  rwa [List.reverse_reverse] at hmade

/-- Directories could be made because no file stands on their way. -/
theorem layDirectories_fileless (h : d.layDirectories p = (d', none)) :
    ∀ k ∈ p.trail, d.fileAt k = none := by
  intro k hk
  have hfile := fileAt_layDirectories d p k
  rw [h] at hfile
  rw [← hfile]
  unfold fileAt
  rw [(layDirectories_made h).trail k hk]

/-- A place on the way that is no file and not missing is a directory. -/
theorem isDir_of_standing (hnull : p.hasNull = false) (hl : d.locate p = .ok (p.normal []))
    (hfile : d.fileAt (p.normal []) = none) (hthere : (d.get? (p.normal [])).isSome) :
    d.isDir p = .ok true := by
  unfold isDir find?
  rw [hnull, hl]
  obtain ⟨e, he⟩ := Option.isSome_iff_exists.mp hthere
  cases e with
  | directory =>
    simp only [he]
    rfl
  | file bytes =>
    rw [fileAt_eq_some.mpr he] at hfile
    cases hfile

/-- Where a path leads to no file its directory can be made, or is there. -/
theorem makeDirectory_cases (hnull : p.hasNull = false) (hl : d.locate p = .ok (p.normal []))
    (hfile : d.fileAt (p.normal []) = none) :
    (∃ d', d.makeDirectory p = .ok d') ∨
      d.makeDirectory p = .error (.on .exists p) ∧ d.isDir p = .ok true := by
  have htarget : d.target p = .ok (p.normal []) := by
    unfold target
    rw [hl]
    rfl
  have hstands : p.parts.getLast? = some ".." → (d.get? (p.normal [])).isSome := by
    intro hlast
    obtain ⟨-, -, hplaces⟩ := locate_eq_ok.mp hl
    obtain ⟨front, hparts⟩ := List.getLast?_eq_some_iff.mp hlast
    -- A parent step leads to a place that the path came through before.
    have hup : p.normal [] <+: (⟨p.root, front⟩ : Path).normal [] := by
      rw [Path.normal_eq, Path.normal_eq, hparts, Location.walk_snoc]
      exact List.dropLast_prefix _
    obtain ⟨spelled, hpre, he⟩ := Path.mem_trail.mp (Path.mem_trail_of_prefix hup)
    rw [he, hplaces spelled]
    · rfl
    · rw [hparts]
      exact hpre.trans (List.prefix_append _ _)
    · intro hsame
      have hle := hpre.length_le
      rw [hsame, hparts] at hle
      simp at hle
  unfold makeDirectory
  rw [htarget]
  simp only [bind, Except.bind]
  split
  · next htaken =>
    refine Or.inr ⟨rfl, isDir_of_standing hnull hl hfile ?_⟩
    simp only [Bool.or_eq_true, beq_iff_eq] at htaken
    exact htaken.elim hstands id
  · exact Or.inl ⟨_, rfl⟩

theorem hasNull_front {root : PathRoot} {parts : List String} {part : String}
    (h : (⟨root, parts ++ [part]⟩ : Path).hasNull = false) :
    (⟨root, parts⟩ : Path).hasNull = false := by
  unfold Path.hasNull at h ⊢
  rw [List.any_append, Bool.or_eq_false_iff] at h
  exact h.1

theorem makeDirectoriesFrom_returns {root : PathRoot} {parts : List String}
    (hnull : (⟨root, parts.reverse⟩ : Path).hasNull = false)
    (hs : (⟨root, parts.reverse⟩ : Path).Short)
    (hfiles : ∀ k ∈ (⟨root, parts.reverse⟩ : Path).trail, d.fileAt k = none) :
    ∃ d', makeDirectoriesFrom root d parts = (d', none) := by
  induction parts with
  | nil => exact ⟨d, rfl⟩
  | cons part above ih =>
    have hrev : (part :: above).reverse = above.reverse ++ [part] := List.reverse_cons
    have hfront : (⟨root, above.reverse⟩ : Path).parts <+:
        (⟨root, (part :: above).reverse⟩ : Path).parts := by
      rw [hrev]
      exact List.prefix_append _ _
    have hend := hfiles _ (Path.normal_mem_trail _)
    obtain ⟨d1, h1⟩ := ih (by rw [hrev] at hnull; exact hasNull_front hnull)
      (by rw [hrev] at hs; exact hs.front) fun k hk => hfiles k (Path.trail_subset hfront hk)
    simp only [makeDirectoriesFrom]
    rcases locate_cases hs hfiles with hl | hl
    · rcases makeDirectory_cases hnull hl hend with ⟨d2, h2⟩ | ⟨h2, hdir⟩
      · rw [h2]
        exact ⟨_, rfl⟩
      · rw [h2]
        exact ⟨_, settle_of_isDir hdir _⟩
    · -- Something above is missing: it is made first, and then the path leads on.
      have hmissing : d.makeDirectory ⟨root, (part :: above).reverse⟩ =
          .error (.on .missing ⟨root, (part :: above).reverse⟩) := by
        unfold makeDirectory target
        rw [hl]
        rfl
      have hmade := makeDirectoriesFrom_made h1
      have hkept : d1.fileAt (Path.normal [] ⟨root, (part :: above).reverse⟩) = none := by
        have hfile := fileAt_layDirectories d ⟨root, above.reverse⟩
          (Path.normal [] ⟨root, (part :: above).reverse⟩)
        unfold layDirectories at hfile
        rw [List.reverse_reverse, h1] at hfile
        rw [hfile, hend]
      have hl1 : d1.locate ⟨root, (part :: above).reverse⟩ =
          .ok (Path.normal [] ⟨root, (part :: above).reverse⟩) := by
        refine locate_eq_ok.mpr ⟨rfl, hs, fun spelled hpre hne => hmade.trail _ ?_⟩
        refine Path.mem_trail.mpr ⟨spelled, ?_, rfl⟩
        rw [hrev] at hpre hne
        exact (List.prefix_concat_iff.mp hpre).resolve_left hne
      rw [hmissing, h1]
      simp only [Trouble.on, if_true]
      rcases makeDirectory_cases hnull hl1 hkept with ⟨d2, h2⟩ | ⟨h2, hdir⟩
      · rw [h2]
        exact ⟨_, rfl⟩
      · rw [h2]
        exact ⟨_, settle_of_isDir hdir _⟩

/-- The directories of a short path can be made where no file stands on its way. -/
theorem layDirectories_returns (hnull : p.hasNull = false) (hs : p.Short)
    (hfiles : ∀ k ∈ p.trail, d.fileAt k = none) : ∃ d', d.layDirectories p = (d', none) :=
  makeDirectoriesFrom_returns (by rwa [List.reverse_reverse]) (by rwa [List.reverse_reverse])
    (by rwa [List.reverse_reverse])

/-- At a place the disk is as it was, or `way` holds and a missing directory was made there. -/
def KeptAt (l : Location) (way : Prop) (d d' : Disk) : Prop :=
  d'.get? l = d.get? l ∨ way ∧ d.get? l = none ∧ d'.get? l = some .directory

namespace KeptAt

variable {way : Prop}

theorem refl : KeptAt l way d d := Or.inl rfl

theorem trans {d'' : Disk} (h : KeptAt l way d d') (h' : KeptAt l way d' d'') :
    KeptAt l way d d'' := by
  rcases h' with h' | ⟨hway, hnone, hmade⟩
  · unfold KeptAt
    rw [h']
    exact h
  · rcases h with h | ⟨-, -, hmade'⟩
    · exact Or.inr ⟨hway, by rw [← h, hnone], hmade⟩
    · rw [hnone] at hmade'
      cases hmade'

theorem mono {other : Prop} (h : KeptAt l way d d') (hw : way → other) : KeptAt l other d d' :=
  h.imp_right fun ⟨hway, hmade⟩ => ⟨hw hway, hmade⟩

/-- What stands there still stands. -/
theorem stands (h : KeptAt l way d d') {e : Entry} (he : d.get? l = some e) :
    d'.get? l = some e := by
  rcases h with h | ⟨-, hnone, -⟩
  · rw [h, he]
  · rw [hnone] at he
    cases he

end KeptAt

/-- Whether or not all directories could be made, nothing has changed but missing places on the
way that have become directories. -/
theorem layDirectories_keptAt (d : Disk) (p : Path) (k : Location) :
    KeptAt k (k ∈ p.trail) d (d.layDirectories p).1 := by
  refine layDirectories_keeps (P := KeptAt k (k ∈ p.trail) d) ?_ .refl
  intro a b spelled hpre hmake ha
  refine ha.trans ?_
  unfold KeptAt
  rw [get?_makeDirectory hmake]
  split
  · next hk =>
    refine Or.inr ⟨?_, ?_, rfl⟩
    · rw [hk]
      exact Path.trail_subset (q := ⟨p.root, spelled⟩) hpre (Path.normal_mem_trail _)
    · rw [hk]
      exact (makeDirectory_eq_ok.mp hmake).2.2.1
  · exact Or.inl rfl

end Disk

end Sourcebook
